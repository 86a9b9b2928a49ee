import SpecUpgrade.Edit
import SpecUpgrade.Text.Offset

/-!
A text with edits on it. Edits are accepted one by one or in groups, an edit that conflicts with
an accepted one is refused, and the rendered text shows all accepted edits at once.
-/

namespace SpecUpgrade

inductive Refusal where
  | overlap (accepted rejected : Span)
  | outOfBounds (range : Span) (length : Nat)
  | insideCharacter (range : Span)
  deriving DecidableEq, Repr

namespace Refusal

def message : Refusal → String
  | overlap accepted rejected =>
    "edit at " ++ rejected.display ++ " overlaps previously accepted edit at " ++ accepted.display
  | outOfBounds range length =>
    "range " ++ range.display ++ " is out of bounds for buffer of length " ++ Nat.repr length
  | insideCharacter range =>
    "range " ++ range.display ++ " does not fall on character boundaries"

def isOverlap : Refusal → Bool
  | overlap _ _ => true
  | outOfBounds _ _ => false
  | insideCharacter _ => false

end Refusal

/-- A source text and the edits accepted so far, in the order of their submission. -/
structure Revision where
  source : String
  edits : List Edit := []
  deriving Repr

namespace Revision

def ofSource (source : String) : Revision := ⟨source, []⟩

/-- The range lies in the text and cuts no character. -/
def checkRange (source : String) (range : Span) : Except Refusal Unit :=
  let cs := source.toList
  if Text.byteLength cs < range.stop then .error (.outOfBounds range (Text.byteLength cs))
  else if Text.isBoundary cs range.start && Text.isBoundary cs range.stop then .ok ()
  else .error (.insideCharacter range)

/-- The edit conflicts with none of those given; the first one that it meets is reported. -/
def checkConflict (edit : Edit) (accepted : List Edit) : Except Refusal Unit :=
  match accepted.find? (·.conflicts edit) with
  | some other => .error (.overlap other.region edit.region)
  | none => .ok ()

def check (source : String) (edit : Edit) (accepted : List Edit) : Except Refusal Unit := do
  checkRange source edit.range
  checkConflict edit accepted

def submit (r : Revision) (edit : Edit) : Except Refusal Revision := do
  check r.source edit r.edits
  return { r with edits := r.edits ++ [edit] }

/-- Checks a group: each edit against the accepted ones and against those staged before it. -/
def stage (r : Revision) (staged : List Edit) : List Edit → Except Refusal (List Edit)
  | [] => .ok staged
  | edit :: rest => do
    check r.source edit r.edits
    check r.source edit staged
    stage r (staged ++ [edit]) rest

/-- Accepts a group of edits, all or none. -/
def submitAll (r : Revision) (group : List Edit) : Except Refusal Revision := do
  let staged ← stage r [] group
  return { r with edits := r.edits ++ staged }

/-- Surrounds a range, with both texts or with none. -/
def wrap (r : Revision) (range : Span) (before after : String) : Except Refusal Revision :=
  r.submitAll (Edit.surround range before after)

/-- Writes sorted edits into the text, of which everything before `cursor` is already done. -/
def renderFrom (cs : List Char) (cursor : Nat) : List Edit → List Char
  | [] => Text.dropTo cursor cs
  | e :: es =>
    let reached := max cursor e.position
    let next := match e.side with
      | .replace => max reached e.range.stop
      | _ => reached
    Text.slice cs cursor reached ++ e.text.toList ++ renderFrom cs next es

/-- The text with all accepted edits done. Edits that nothing else orders keep the order of their
submission. -/
def render (r : Revision) : String :=
  String.ofList (renderFrom r.source.toList 0 (r.edits.mergeSort Edit.comesBefore))

end Revision
end SpecUpgrade
