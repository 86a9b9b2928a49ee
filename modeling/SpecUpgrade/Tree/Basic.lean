import SpecUpgrade.Text.Offset
import SpecUpgrade.Tree.Error

/-!
Syntax trees. The nodes stand in one array in which children come before their parents, and every
node but the root has a link to its parent. Nodes are named by their index in the array. Trees are
built bottom-up, one node at a time.
-/

namespace SpecUpgrade

/-- A child slot that holds no node. -/
inductive Literal where
  | nil
  | bool (b : Bool)
  | int (n : Int)
  | float (bits : UInt64)
  | sym (name : String)
  | str (text : String)
  deriving DecidableEq, Repr

inductive Child where
  | node (id : Nat)
  | literal (l : Literal)
  deriving DecidableEq, Repr

namespace Child

def node? : Child → Option Nat
  | node id => some id
  | literal _ => none

def literal? : Child → Option Literal
  | node _ => none
  | literal l => some l

end Child

/-- A node with its place in the source. A heredoc node also knows where its body stands. -/
structure Node where
  kind : String
  range : Span
  heredoc : Option Span
  children : List Child
  parent : Option Nat
  deriving DecidableEq, Repr

def Node.childIds (n : Node) : List Nat := n.children.filterMap Child.node?

/-- Children come before the nodes that hold them, parents after the nodes that name them. -/
structure Linked (nodes : Array Node) : Prop where
  child_lt : ∀ {i : Nat} {n : Node}, nodes[i]? = some n → ∀ c ∈ n.childIds, c < i
  lt_parent : ∀ {i p : Nat} {n : Node}, nodes[i]? = some n → n.parent = some p →
    i < p ∧ p < nodes.size

theorem linked_empty : Linked #[] :=
  ⟨fun h => by simp at h, fun h => by simp at h⟩

def adopt (parent : Nat) (ids : List Nat) (nodes : Array Node) : Array Node :=
  nodes.mapIdx fun i n => if i ∈ ids then { n with parent := some parent } else n

theorem linked_adopt_push {nodes : Array Node} (h : Linked nodes) {node : Node}
    (fresh : node.parent = none) (known : ∀ c ∈ node.childIds, c < nodes.size) :
    Linked ((adopt nodes.size node.childIds nodes).push node) := by
  have size : (adopt nodes.size node.childIds nodes).size = nodes.size := by simp [adopt]
  have old : ∀ {i : Nat} {n : Node},
      ((adopt nodes.size node.childIds nodes).push node)[i]? = some n → i ≠ nodes.size →
        ∃ m, nodes[i]? = some m ∧
          n = if i ∈ node.childIds then { m with parent := some nodes.size } else m := by
    intro i n hn hi
    rw [Array.getElem?_push, size, if_neg hi] at hn
    simp only [adopt, Array.getElem?_mapIdx, Option.map_eq_some_iff] at hn
    obtain ⟨m, hm, rfl⟩ := hn
    exact ⟨m, hm, rfl⟩
  have new : ∀ {n : Node},
      ((adopt nodes.size node.childIds nodes).push node)[nodes.size]? = some n → n = node := by
    intro n hn
    rw [Array.getElem?_push, size, if_pos rfl] at hn
    exact (Option.some.inj hn).symm
  constructor
  · intro i n hn c hc
    by_cases hi : i = nodes.size
    · subst hi
      rw [new hn] at hc
      exact known c hc
    · obtain ⟨m, hm, rfl⟩ := old hn hi
      refine h.child_lt hm c ?_
      split at hc <;> exact hc
  · intro i p n hn hp
    by_cases hi : i = nodes.size
    · subst hi
      rw [new hn, fresh] at hp
      cases hp
    · obtain ⟨m, hm, rfl⟩ := old hn hi
      have hlt : i < nodes.size := (Array.getElem?_eq_some_iff.1 hm).1
      rw [Array.size_push, size]
      by_cases hc : i ∈ node.childIds
      · rw [if_pos hc] at hp
        cases hp
        exact ⟨hlt, Nat.lt_succ_self _⟩
      · rw [if_neg hc] at hp
        have := h.lt_parent hm hp
        omega

structure Builder where
  path : String
  source : String
  nodes : Array Node
  linked : Linked nodes

structure Tree where
  path : String
  source : String
  nodes : Array Node
  root : Nat
  linked : Linked nodes

namespace Builder

def start (path source : String) : Builder := ⟨path, source, #[], linked_empty⟩

/-- The range lies in the source and cuts no character. -/
def checkRange (source : String) (range : Span) : Except TreeError Unit :=
  let cs := source.toList
  if decide (range.stop ≤ Text.byteLength cs) && Text.isBoundary cs range.start
      && Text.isBoundary cs range.stop then .ok ()
  else .error (.invalidRange range (Text.byteLength cs))

/-- The first of the nodes that is not built yet or has a parent already. -/
def childFault (nodes : Array Node) : List Nat → Option TreeError
  | [] => none
  | c :: cs =>
    match nodes[c]? with
    | none => some (.unknownNode c)
    | some n => if n.parent.isSome then some (.alreadyAdopted c) else childFault nodes cs

theorem lt_size_of_childFault {nodes : Array Node} {ids : List Nat}
    (h : childFault nodes ids = none) : ∀ c ∈ ids, c < nodes.size := by
  induction ids with
  | nil => simp
  | cons d ids ih =>
    rw [childFault] at h
    split at h
    · cases h
    · rename_i n hn
      split at h
      · cases h
      · intro c hc
        rcases List.mem_cons.1 hc with rfl | hc
        · exact (Array.getElem?_eq_some_iff.1 hn).1
        · exact ih h c hc

/-- Adds a node above nodes that were added before and takes these as its children. The new node is
named by the number of nodes before it, which fits thirty-two bits up to the `2 ^ 32`-th push. -/
def push (b : Builder) (kind : String) (range : Span) (heredoc : Option Span)
    (children : List Child) : Except TreeError (Nat × Builder) := do
  checkRange b.source range
  match heredoc with
  | some body => checkRange b.source body
  | none => pure ()
  let node : Node := ⟨kind, range, heredoc, children, none⟩
  match h : childFault b.nodes node.childIds with
  | some e => .error e
  | none =>
    .ok (b.nodes.size,
      { b with
        nodes := (adopt b.nodes.size node.childIds b.nodes).push node
        linked := linked_adopt_push b.linked rfl (lt_size_of_childFault h) })

/-- Nodes without a parent other than the given one. -/
def strays (nodes : Array Node) (root : Nat) : List Nat :=
  (List.range nodes.size).filter fun i =>
    i != root && (nodes[i]?.bind (·.parent)).isNone

/-- Ends the construction. Every node but the root must have got a parent. -/
def finish (b : Builder) (root : Nat) : Except TreeError Tree :=
  match b.nodes[root]? with
  | none => .error (.unknownNode root)
  | some n =>
    if n.parent.isSome then .error (.alreadyAdopted root)
    else
      match strays b.nodes root with
      | i :: _ => .error (.detached i)
      | [] => .ok ⟨b.path, b.source, b.nodes, root, b.linked⟩

end Builder
end SpecUpgrade
