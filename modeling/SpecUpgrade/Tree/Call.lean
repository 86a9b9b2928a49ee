import SpecUpgrade.Text.Blank
import SpecUpgrade.Tree.Walk

/-!
Method calls and constants in a tree. A call holds its receiver in the first slot, the method name
in the second and its arguments in the others.
-/

namespace SpecUpgrade.Tree

/-- A call, with or without safe navigation. -/
def isCall (t : Tree) (id : Nat) : Bool := t.kind id == "send" || t.kind id == "csend"

def receiver? (t : Tree) (id : Nat) : Option Nat :=
  if t.isCall id then t.childNode? id 0 else none

def methodName? (t : Tree) (id : Nat) : Option String :=
  if t.isCall id then t.symbol? id 1 else none

def arguments (t : Tree) (id : Nat) : List Nat :=
  if t.isCall id then ((t.childSlots id).filter fun (i, _) => decide (2 ≤ i)).map (·.2) else []

/-- The first boundary at or after an offset that is not followed by white space. -/
def skipBlank (source : List Char) (offset : Nat) : Nat :=
  offset + Text.byteLength ((Text.dropTo offset source).takeWhile Text.isBlank)

def callOperators : List (List Char) := [['&', '.'], [':', ':'], ['.']]

/-- The offset after the operator that stands at an offset, if one stands there. -/
def skipOperator (source : List Char) (offset : Nat) : Nat :=
  match callOperators.find? (·.isPrefixOf (Text.dropTo offset source)) with
  | some op => offset + Text.byteLength op
  | none => offset

/-- Where the name of a call is looked for: after the receiver and the operator, or at the start of
a call without a receiver. -/
def selectorStart (t : Tree) (id : Nat) : Nat :=
  let source := t.source.toList
  match t.receiver? id with
  | some r => skipBlank source (skipOperator source (skipBlank source (t.range r).stop))
  | none => (t.range id).start

/-- The place of the method name of a call, if the name stands where it should. -/
def selector? (t : Tree) (id : Nat) : Option Span := do
  let name ← t.methodName? id
  let start := t.selectorStart id
  let stop := start + Text.byteLength name.toList
  if name.toList.isPrefixOf (Text.dropTo start t.source.toList) && decide (stop ≤ (t.range id).stop)
  then some ⟨start, stop, Nat.le_add_right _ _⟩
  else none

theorem le_skipBlank (source : List Char) (offset : Nat) : offset ≤ skipBlank source offset :=
  Nat.le_add_right _ _

theorem le_skipOperator (source : List Char) (offset : Nat) :
    offset ≤ skipOperator source offset := by
  unfold skipOperator
  split
  · exact Nat.le_add_right _ _
  · exact Nat.le_refl _

theorem stop_le_selectorStart {t : Tree} {id r : Nat} (h : t.receiver? id = some r) :
    (t.range r).stop ≤ t.selectorStart id := by
  simp only [selectorStart, h]
  exact Nat.le_trans (le_skipBlank _ _) (Nat.le_trans (le_skipOperator _ _) (le_skipBlank _ _))

theorem selector?_start {t : Tree} {id : Nat} {s : Span} (h : t.selector? id = some s) :
    s.start = t.selectorStart id := by
  unfold selector? at h
  cases hn : t.methodName? id with
  | none => simp [hn] at h
  | some name =>
    simp only [hn, Option.bind_eq_bind, Option.bind_some, Option.ite_none_right_eq_some] at h
    rw [← Option.some.inj h.2]

theorem receiver_le_selector {t : Tree} {id r : Nat} {s : Span} (hr : t.receiver? id = some r)
    (hs : t.selector? id = some s) : (t.range r).stop ≤ s.stop :=
  Nat.le_trans (selector?_start hs ▸ stop_le_selectorStart hr) s.start_le_stop

/-- From the end of the receiver of a call to the end of its method name. -/
def tail? (t : Tree) (id : Nat) : Option Span :=
  match hr : t.receiver? id, hs : t.selector? id with
  | some r, some s => some ⟨(t.range r).stop, s.stop, receiver_le_selector hr hs⟩
  | _, _ => none

def constName? (t : Tree) (id : Nat) : Option String :=
  if t.kind id == "const" then t.symbol? id 1 else none

/-- The node is the constant of that name at the top level. -/
def isTopLevelConst (t : Tree) (id : Nat) (name : String) : Bool :=
  t.constName? id == some name &&
    match t.childNode? id 0 with
    | none => true
    | some scope => t.kind scope == "cbase"

end SpecUpgrade.Tree
