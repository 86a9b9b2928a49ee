import SpecUpgrade.Span

/-!
Anchored text edits and the regions they modify. An insertion modifies a point, a replacement its
whole anchor; two edits conflict when the regions they modify meet.
-/

namespace SpecUpgrade

/-- Where the text of an edit goes relative to its anchor. -/
inductive Side where
  | before
  | after
  | replace
  deriving DecidableEq, Repr

structure Edit where
  range : Span
  text : String
  side : Side
  deriving DecidableEq, Repr

namespace Edit

def insertBefore (range : Span) (text : String) : Edit := ⟨range, text, .before⟩

def insertAfter (range : Span) (text : String) : Edit := ⟨range, text, .after⟩

def replace (range : Span) (text : String) : Edit := ⟨range, text, .replace⟩

def remove (range : Span) : Edit := replace range ""

def surround (range : Span) (before after : String) : List Edit :=
  [insertBefore range before, insertAfter range after]

/-- The part of the text that the edit modifies. -/
def region (e : Edit) : Span :=
  match e.side with
  | .before => Span.point e.range.start
  | .after => Span.point e.range.stop
  | .replace => e.range

/-- The offset at which the text of the edit comes out. -/
def position (e : Edit) : Nat :=
  match e.side with
  | .before => e.range.start
  | .after => e.range.stop
  | .replace => e.range.start

/-- Two points never clash, a point clashes with a range strictly around it, and two ranges clash
when they overlap. -/
def regionsClash (a b : Span) : Bool :=
  match a.isEmpty, b.isEmpty with
  | true, true => false
  | true, false => decide (b.start < a.start) && decide (a.start < b.stop)
  | false, true => decide (a.start < b.start) && decide (b.start < a.stop)
  | false, false => a.overlaps b

def conflicts (a b : Edit) : Bool := regionsClash a.region b.region

/-- Among edits at one offset the insertions after a range come first, then the insertions before
one, then the replacement. -/
def rank (e : Edit) : Nat :=
  match e.side with
  | .after => 0
  | .before => 1
  | .replace => 2

/-- Ranges that end at one offset close from the inside, ranges that start at one open from the
outside, and of two replacements the shorter comes first. -/
def nesting (e : Edit) : Int :=
  match e.side with
  | .after => -(e.range.start : Int)
  | .before => -(e.range.stop : Int)
  | .replace => (e.range.stop : Int)

/-- The order in which edits come out: by position, then rank, then nesting. -/
def comesBefore (a b : Edit) : Bool :=
  if a.position ≠ b.position then decide (a.position < b.position)
  else if a.rank ≠ b.rank then decide (a.rank < b.rank)
  else decide (a.nesting ≤ b.nesting)

end Edit
end SpecUpgrade
