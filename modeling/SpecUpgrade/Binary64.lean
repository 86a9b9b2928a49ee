import SpecUpgrade.Word

/-!
Binary64 numbers by their bits. A nonnegative rational is rounded to the nearest number, a tie to
the one with an even significand, in exact integer arithmetic.
-/

namespace SpecUpgrade.Binary64

def infinity : Nat := 0x7ff0000000000000

/-- The leading bit of a significand of fifty-three bits, which is not stored. -/
def hiddenBit : Nat := 4503599627370496

/-- Divides by a power of two, which may be negative, without rounding: the result is a fraction. -/
def unscale (num den : Nat) (e : Int) : Nat × Nat :=
  if 0 ≤ e then (num, den <<< e.toNat) else (num <<< (-e).toNat, den)

/-- The exponent of the last place of a significand of fifty-three bits, or the least exponent. -/
def lastPlace (num den : Nat) : Int :=
  let e : Int := (num.log2 : Int) - den.log2 - 52
  let (n, d) := unscale num den e
  let e := if n / d < hiddenBit then e - 1 else e
  max e (-1074)

/-- The quotient to the nearest integer, a tie to the even one. -/
def roundQuotient (n d : Nat) : Nat :=
  let q := n / d
  let r := n % d
  if d < 2 * r ∨ (d = 2 * r ∧ q % 2 = 1) then q + 1 else q

/-- The bits of the number nearest to a fraction. Whatever rounds beyond the largest finite number
is infinite. -/
def ofRatio (num den : Nat) : Nat :=
  if num = 0 then 0
  else
    let e := lastPlace num den
    let (n, d) := unscale num den e
    min infinity ((e + 1074).toNat * hiddenBit + roundQuotient n d)

/-- The fraction that finite bits stand for. -/
def toRatio (bits : Nat) : Nat × Nat :=
  let exponent := bits / hiddenBit
  let significand := bits % hiddenBit
  if exponent = 0 then (significand, 1 <<< 1074)
  else if 1075 ≤ exponent then ((hiddenBit + significand) <<< (exponent - 1075), 1)
  else (hiddenBit + significand, 1 <<< (1075 - exponent))

/-- The number nearest to `digits * 10 ^ exponent`. Beyond four hundred places the result is zero
or infinite whatever the digits are. -/
def ofDecimal (digits : Nat) (exponent : Int) : Nat :=
  let places : Int := (Nat.toDigits 10 digits).length
  if digits = 0 ∨ exponent + places < -400 then 0
  else if 400 < exponent + places then infinity
  else if 0 ≤ exponent then ofRatio (digits * Nat.pow 10 exponent.toNat) 1
  else ofRatio digits (Nat.pow 10 (-exponent).toNat)

def add (a b : Nat) : Nat :=
  let (m, d) := toRatio a
  let (n, e) := toRatio b
  ofRatio (m * e + n * d) (d * e)

def mul (a b : Nat) : Nat :=
  let (m, d) := toRatio a
  let (n, e) := toRatio b
  ofRatio (m * n) (d * e)

def div (a b : Nat) : Nat :=
  let (m, d) := toRatio a
  let (n, e) := toRatio b
  ofRatio (m * e) (d * n)

def signed (negative : Bool) (bits : Nat) : UInt64 :=
  UInt64.ofNat (if negative then bits + Word.half64 else bits)

end SpecUpgrade.Binary64
