import SpecUpgrade.Tree.Basic

/-!
Ways through a tree: up along the parent links and down in pre-order.
-/

namespace SpecUpgrade.Tree

def node? (t : Tree) (id : Nat) : Option Node := t.nodes[id]?

def size (t : Tree) : Nat := t.nodes.size

/-- The kind of a node; an id that names no node has none. -/
def kind (t : Tree) (id : Nat) : String := ((t.node? id).map (·.kind)).getD ""

/-- The place of a node; an id that names no node has the empty one. -/
def range (t : Tree) (id : Nat) : Span := ((t.node? id).map (·.range)).getD (Span.point 0)

def children (t : Tree) (id : Nat) : List Child := ((t.node? id).map (·.children)).getD []

def childIds (t : Tree) (id : Nat) : List Nat := ((t.node? id).map (·.childIds)).getD []

def parent? (t : Tree) (id : Nat) : Option Nat := (t.node? id).bind (·.parent)

theorem childIds_lt (t : Tree) {id c : Nat} (h : c ∈ t.childIds id) : c < id := by
  unfold childIds node? at h
  cases hn : t.nodes[id]? with
  | none => simp [hn] at h
  | some n => exact t.linked.child_lt hn c (by simpa [hn] using h)

theorem lt_parent (t : Tree) {id p : Nat} (h : t.parent? id = some p) :
    id < p ∧ p < t.nodes.size := by
  unfold parent? node? at h
  cases hn : t.nodes[id]? with
  | none => simp [hn] at h
  | some n => exact t.linked.lt_parent hn (by simpa [hn] using h)

/-- The nodes above a node, the nearest first. -/
def ancestors (t : Tree) (id : Nat) : List Nat :=
  match _h : t.parent? id with
  | none => []
  | some p => p :: ancestors t p
termination_by t.nodes.size - id
decreasing_by
  have := t.lt_parent _h
  omega

/-- A node followed by everything below it, parents before children and siblings in order. -/
def preorder (t : Tree) (id : Nat) : List Nat :=
  id :: (t.childIds id).attach.flatMap fun ⟨c, _⟩ => preorder t c
termination_by id
decreasing_by
  rename_i h
  exact t.childIds_lt h

theorem preorder_eq (t : Tree) (id : Nat) :
    t.preorder id = id :: (t.childIds id).flatMap t.preorder := by
  rw [preorder]
  simp [List.flatMap_subtype]

theorem length_preorder (t : Tree) (id : Nat) :
    (t.preorder id).length = ((t.childIds id).flatMap t.preorder).length + 1 := by
  rw [preorder_eq, List.length_cons]

/-- Everything below a node in pre-order. -/
def descendants (t : Tree) (id : Nat) : List Nat := (t.preorder id).tail

/-- All nodes in pre-order. -/
def nodesInOrder (t : Tree) : List Nat := t.preorder t.root

def childSlots (t : Tree) (id : Nat) : List (Nat × Nat) :=
  (t.children id).zipIdx.filterMap fun (c, i) => c.node?.map (i, ·)

def childNode? (t : Tree) (id : Nat) (slot : Nat) : Option Nat :=
  (t.children id)[slot]?.bind Child.node?

def literal? (t : Tree) (id : Nat) (slot : Nat) : Option Literal :=
  (t.children id)[slot]?.bind Child.literal?

def symbol? (t : Tree) (id : Nat) (slot : Nat) : Option String :=
  match t.literal? id slot with
  | some (.sym name) => some name
  | _ => none

/-- The first slot of the parent that holds the node. -/
def slot? (t : Tree) (id : Nat) : Option Nat := do
  let p ← t.parent? id
  (t.children p).findIdx? (·.node? == some id)

def text (t : Tree) (id : Nat) : String :=
  let r := t.range id
  String.ofList (Text.slice t.source.toList r.start r.stop)

/-- Where the last heredoc body in the subtree of a node ends. -/
def heredocEnd? (t : Tree) (id : Nat) : Option Nat :=
  ((t.preorder id).filterMap fun i => (t.node? i).bind (·.heredoc)).foldl
    (fun m s => some (max (m.getD 0) s.stop)) none

def describe (t : Tree) (id : Nat) : String :=
  "(" ++ t.kind id ++ " #" ++ Nat.repr id ++ " " ++ (t.range id).display ++ ")"

end SpecUpgrade.Tree
