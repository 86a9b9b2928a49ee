import SpecUpgrade.Scope.Context

/-!
A scan of a tree that shows a visitor every node with the nodes and scopes around it. The scan
works off a list of steps, so that a visitor can leave out a subtree or end the scan.
-/

namespace SpecUpgrade.Scan

/-- What a visitor says of a node: go on below it, leave out what is below it, or end. -/
inductive Verdict where
  | descend
  | skip
  | stop
  deriving DecidableEq, Repr

/-- The nodes and the scopes around a visited node, outermost first. -/
structure Context where
  ancestors : List Nat
  scopes : List Scope
  deriving DecidableEq, Repr

def Context.inExampleContext (c : Context) : Bool := Scope.inExampleContext c.scopes

abbrev Visitor (σ : Type) := σ → Nat → Context → σ × Verdict

inductive Step where
  | visit (id : Nat)
  | openScope (scope : Scope)
  | closeScope
  | leave
  deriving DecidableEq, Repr

/-- What is still to do for a step, in steps at most. -/
def Step.cost (t : Tree) : Step → Nat
  | visit id => 4 * (t.preorder id).length
  | _ => 1

def cost (t : Tree) : List Step → Nat
  | [] => 0
  | step :: work => step.cost t + cost t work

/-- The steps for what is below a node, which are done within its scope. -/
def below (t : Tree) (id : Nat) : List Step :=
  let visits := (t.childIds id).map Step.visit
  match Scope.ofNode? t id with
  | some scope => .openScope scope :: (visits ++ [.closeScope, .leave])
  | none => visits ++ [.leave]

theorem cost_append (t : Tree) (xs ys : List Step) : cost t (xs ++ ys) = cost t xs + cost t ys := by
  induction xs with
  | nil => simp [cost]
  | cons x xs ih => simp [cost, ih, Nat.add_assoc]

theorem cost_visits (t : Tree) (ids : List Nat) :
    cost t (ids.map Step.visit) = 4 * (ids.flatMap t.preorder).length := by
  induction ids with
  | nil => rfl
  | cons c ids ih =>
    rw [List.map_cons, cost, ih, Step.cost, List.flatMap_cons, List.length_append, Nat.mul_add]

theorem cost_below (t : Tree) (id : Nat) : cost t (below t id) < Step.cost t (.visit id) := by
  have h := cost_visits t (t.childIds id)
  rw [Step.cost, Tree.length_preorder]
  unfold below
  split
  · simp only [cost, cost_append, h, Step.cost]
    omega
  · simp only [cost, cost_append, h, Step.cost]
    omega

/-- Works off the steps. The node `unseen`, if any, is passed over but not what is below it. -/
def run {σ : Type} (t : Tree) (visitor : Visitor σ) (unseen : Option Nat) (state : σ)
    (context : Context) (work : List Step) : σ :=
  match work with
  | [] => state
  | .openScope scope :: work =>
    run t visitor unseen state { context with scopes := context.scopes ++ [scope] } work
  | .closeScope :: work =>
    run t visitor unseen state { context with scopes := context.scopes.dropLast } work
  | .leave :: work =>
    run t visitor unseen state { context with ancestors := context.ancestors.dropLast } work
  | .visit id :: work =>
    let (state, verdict) :=
      if unseen = some id then (state, Verdict.descend) else visitor state id context
    match verdict with
    | .stop => state
    | .skip => run t visitor unseen state context work
    | .descend =>
      run t visitor unseen state { context with ancestors := context.ancestors ++ [id] }
        (below t id ++ work)
termination_by cost t work
decreasing_by
  · simp [cost, Step.cost]
  · simp [cost, Step.cost]
  · simp [cost, Step.cost]
  · have := cost_below t id
    simp only [cost]
    omega
  · have := cost_below t id
    rw [cost_append, cost]
    omega

end SpecUpgrade.Scan

namespace SpecUpgrade.Tree

/-- Shows a visitor the nodes from `root` on in pre-order, as if nothing stood above `root`. Unless
`showRoot` is set the visitor does not see `root` itself. -/
def scan {σ : Type} (t : Tree) (root : Nat) (showRoot : Bool) (visitor : Scan.Visitor σ)
    (state : σ) : σ :=
  Scan.run t visitor (if showRoot then none else some root) state ⟨[], []⟩ [.visit root]

end SpecUpgrade.Tree
