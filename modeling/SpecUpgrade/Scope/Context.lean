import SpecUpgrade.Scope.Tag

/-!
Whether code runs as part of an example. The open scopes around a place, outermost first, decide.
-/

namespace SpecUpgrade.Scope

def sinceLast (anchor : Scope) : List Scope → Option (List Scope)
  | [] => none
  | s :: rest =>
    match sinceLast anchor rest with
    | some found => some found
    | none => if s = anchor then some rest else none

/-- Code below an anchor runs in an instance when a method or a block is open and no class. -/
def runsInInstance (rest : List Scope) : Bool :=
  !rest.any isClassLike && rest.any fun s => s == method || s.isBlockLike

/-- Code runs in an example group's instance. The last example group decides, or else the last
configuration block; without either, a method at the outside counts unless a class is open in it,
and at last a method in the last module without a class in between. -/
def inExampleContext (scopes : List Scope) : Bool :=
  match sinceLast exampleGroup scopes with
  | some rest => runsInInstance rest
  | none =>
    match sinceLast configuration scopes with
    | some rest => runsInInstance rest
    | none =>
      if scopes.head? = some method then !scopes.tail.any isClassLike
      else
        match sinceLast moduleBody scopes with
        | some rest => !rest.any isClassLike && rest.contains method
        | none => false

end SpecUpgrade.Scope

namespace SpecUpgrade.Tree

/-- The open scopes around a node, outermost first: those of the nodes above it. -/
def scopesAt (t : Tree) (id : Nat) : List Scope :=
  ((t.ancestors id).filterMap (Scope.ofNode? t)).reverse

/-- Code at a node runs as part of an example. -/
def inExampleContext (t : Tree) (id : Nat) : Bool := Scope.inExampleContext (t.scopesAt id)

end SpecUpgrade.Tree
