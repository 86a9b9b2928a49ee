import SpecUpgrade.Text.Offset

/-!
Line and column of an offset. Both count from one; a column counts characters, not bytes. The counts
are numbers of thirty-two bits, which no text of fewer than `2 ^ 32 - 1` characters can exhaust.
-/

namespace SpecUpgrade

structure Position where
  line : Nat
  col : Nat
  deriving DecidableEq, Repr

namespace Position

def origin : Position := ⟨1, 1⟩

def advance (p : Position) (c : Char) : Position :=
  if c = '\n' then ⟨p.line + 1, 1⟩ else ⟨p.line, p.col + 1⟩

/-- The position of a byte offset. An offset inside a character has the position of the next
boundary and an offset past the end that of the end. -/
def ofOffset (text : String) (offset : Nat) : Position :=
  (Text.takeTo offset text.toList).foldl advance origin

end Position
end SpecUpgrade
