import SpecUpgrade.Revision
import SpecUpgrade.Rule.Availability
import SpecUpgrade.Text.Position

/-!
The conversion of a source. Matches are converted in pre-order; one that cannot be converted is
left alone and noted.
-/

namespace SpecUpgrade

/-- Why a match is left alone. -/
inductive Obstacle where
  | unavailable (rule : Rule) (method : String)
  | conflict (rule : Rule) (refusal : Refusal)
  deriving DecidableEq, Repr

namespace Obstacle

def rule : Obstacle → Rule
  | unavailable rule _ => rule
  | conflict rule _ => rule

def kind : Obstacle → String
  | unavailable _ _ => "context_unavailable"
  | conflict _ _ => "edit_conflict"

def message : Obstacle → String
  | unavailable rule method =>
    "cannot convert `" ++ rule.name ++ "` here: `" ++ method ++ "` is not available in this context"
  | conflict rule refusal => "`" ++ rule.name ++ "` conversion dropped: " ++ refusal.message

end Obstacle

/-- Submits the edits of a match, if what it needs can be called where it stands. -/
def Match.apply (t : Tree) (facts : Facts) (r : Revision) (m : Match) : Except Obstacle Revision :=
  match m.needs?.filter (!·.holds t facts m.node) with
  | some a => .error (.unavailable m.rule a.method)
  | none =>
    match r.submitAll (m.edits t) with
    | .ok r => .ok r
    | .error refusal => .error (.conflict m.rule refusal)

structure AppliedRule where
  rule : String
  line : Nat
  col : Nat
  deriving DecidableEq, Repr

/-- A match that was left alone, where it stands and why. -/
structure Notice where
  kind : String
  rule : String
  message : String
  line : Nat
  col : Nat
  deriving DecidableEq, Repr

structure ConvertedSource where
  source : String
  changed : Bool
  conversions : List AppliedRule
  notices : List Notice
  deriving DecidableEq, Repr

structure Progress where
  revision : Revision
  conversions : List AppliedRule
  notices : List Notice

/-- Converts one more match or notes why not. -/
def Progress.step (t : Tree) (facts : Facts) (p : Progress) (m : Match) : Progress :=
  let place := Position.ofOffset t.source (t.range m.node).start
  match m.apply t facts p.revision with
  | .ok r => { p with
      revision := r
      conversions := p.conversions ++ [⟨m.rule.name, place.line, place.col⟩] }
  | .error o => { p with
      notices := p.notices ++ [⟨o.kind, o.rule.name, o.message, place.line, place.col⟩] }

/-- Converts every match of the enabled rules. -/
def Tree.convert (t : Tree) (enabled : List Rule) (facts : Facts) : ConvertedSource :=
  let p := (Match.all t enabled).foldl (Progress.step t facts) ⟨.ofSource t.source, [], []⟩
  let source := p.revision.render
  ⟨source, source != t.source, p.conversions, p.notices⟩

end SpecUpgrade
