/-!
Half-open ranges of byte offsets.
-/

namespace SpecUpgrade

/-- The offsets from `start` up to, and without, `stop`. -/
structure Span where
  start : Nat
  stop : Nat
  start_le_stop : start ≤ stop := by omega
  deriving DecidableEq, Repr

namespace Span

/-- The span between two offsets, if they come in order. -/
def ofBounds? (start stop : Nat) : Option Span :=
  if h : start ≤ stop then some ⟨start, stop, h⟩ else none

def disorderMessage (start stop : Nat) : String :=
  "Span start (" ++ Nat.repr start ++ ") must be <= end (" ++ Nat.repr stop ++ ")"

def point (offset : Nat) : Span := ⟨offset, offset, Nat.le_refl _⟩

def length (s : Span) : Nat := s.stop - s.start

def isEmpty (s : Span) : Bool := s.start == s.stop

/-- Some offset lies in both spans. Spans that only touch do not overlap. -/
def overlaps (a b : Span) : Bool := decide (a.start < b.stop) && decide (b.start < a.stop)

def contains (a b : Span) : Bool := decide (a.start ≤ b.start) && decide (b.stop ≤ a.stop)

/-- Spans are ordered by their start, then by their end. -/
def cmp (a b : Span) : Ordering := (compare a.start b.start).then (compare a.stop b.stop)

def display (s : Span) : String := "[" ++ Nat.repr s.start ++ ", " ++ Nat.repr s.stop ++ ")"

end Span
end SpecUpgrade
