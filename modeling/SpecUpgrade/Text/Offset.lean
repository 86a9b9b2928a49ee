/-!
Byte offsets into text. A text is a list of characters and an offset counts the bytes of its UTF-8
form, so an offset is a boundary when no character is cut there.
-/

namespace SpecUpgrade.Text

def byteLength : List Char → Nat
  | [] => 0
  | c :: cs => c.utf8Size + byteLength cs

/-- The offset stands before a character of the text or at its end. -/
def isBoundary : List Char → Nat → Bool
  | _, 0 => true
  | [], _ + 1 => false
  | c :: cs, n + 1 => decide (c.utf8Size ≤ n + 1) && isBoundary cs (n + 1 - c.utf8Size)

/-- The characters that start before the offset. -/
def takeTo : Nat → List Char → List Char
  | 0, _ => []
  | _ + 1, [] => []
  | n + 1, c :: cs => c :: takeTo (n + 1 - c.utf8Size) cs

/-- The characters that start at the offset or after it. -/
def dropTo : Nat → List Char → List Char
  | 0, cs => cs
  | _ + 1, [] => []
  | n + 1, c :: cs => dropTo (n + 1 - c.utf8Size) cs

/-- The characters that start in `[start, stop)`. -/
def slice (cs : List Char) (start stop : Nat) : List Char :=
  takeTo (stop - start) (dropTo start cs)

theorem takeTo_append_dropTo (n : Nat) (cs : List Char) : takeTo n cs ++ dropTo n cs = cs := by
  induction cs generalizing n with
  | nil => cases n <;> rfl
  | cons c cs ih =>
    cases n with
    | zero => rfl
    | succ n => simp [takeTo, dropTo, ih]

theorem byteLength_append (xs ys : List Char) :
    byteLength (xs ++ ys) = byteLength xs + byteLength ys := by
  induction xs with
  | nil => simp [byteLength]
  | cons c xs ih => simp [byteLength, ih, Nat.add_assoc]

theorem byteLength_takeTo {n : Nat} {cs : List Char} (h : isBoundary cs n = true) :
    byteLength (takeTo n cs) = n := by
  induction cs generalizing n with
  | nil => cases n with
    | zero => rfl
    | succ n => simp [isBoundary] at h
  | cons c cs ih =>
    cases n with
    | zero => rfl
    | succ n =>
      simp only [isBoundary, Bool.and_eq_true, decide_eq_true_eq] at h
      simp only [takeTo, byteLength, ih h.2]
      omega

end SpecUpgrade.Text
