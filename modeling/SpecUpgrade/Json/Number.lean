import SpecUpgrade.Binary64
import SpecUpgrade.Json.Form
import SpecUpgrade.Word

/-!
The value of a written number. A number without fraction and exponent is an integer as long as it
fits sixty-four bits; any other is a binary64 value, made by scaling the leading digits that fit
sixty-four bits by a power of ten.
-/

namespace SpecUpgrade.Json

/-- A number is an integer or a binary64 value, given by its bits. -/
inductive Number where
  | int (n : Int)
  | float (bits : UInt64)
  deriving DecidableEq, Repr

namespace Number

/-- Takes digits into the significand while it fits a word; the digits left over come back. -/
def gather (significand : Nat) : List Nat → Nat × List Nat
  | [] => (significand, [])
  | d :: ds =>
    if significand * 10 + d < Word.bound64 then gather (significand * 10 + d) ds
    else (significand, d :: ds)

/-- The largest power of ten by which a value is scaled at once. -/
def largestPower : Nat := 308

def powerOfTen (n : Nat) : Nat := Binary64.ofDecimal 1 n

/-- Scales a binary64 value by a power of ten. Each step rounds; a result beyond the largest finite
value is refused. -/
def scale : Nat → Nat → Int → Option Nat
  | 0, _, _ => none
  | fuel + 1, f, exponent =>
    if exponent.natAbs ≤ largestPower then
      if 0 ≤ exponent then
        let f := Binary64.mul f (powerOfTen exponent.natAbs)
        if f = Binary64.infinity then none else some f
      else some (Binary64.div f (powerOfTen exponent.natAbs))
    else if f = 0 then some f
    else if 0 ≤ exponent then none
    else scale fuel (Binary64.div f (powerOfTen largestPower)) (exponent + largestPower)

/-- The exponent that is written, or none when it is beyond thirty-two bits. -/
def writtenExponent? (digits : List Nat) : Option Nat :=
  let value := digits.foldl (fun n d => n * 10 + d) 0
  if value < Word.half32 then some value else none

def scaled (negative : Bool) (significand : Nat) (exponent : Int) : Option Number := do
  -- two divisions take every word to zero, so no lower exponent changes the result
  let f ← scale 8 (Binary64.ofRatio significand 1) (max exponent (-2000))
  return .float (Binary64.signed negative f)

/-- The binary64 value of a significand, the exponent found so far and the written one. -/
def scaledBy (negative : Bool) (significand : Nat) (exponent : Int) :
    Option (Bool × List Nat) → Option Number
  | none => scaled negative significand exponent
  | some (down, digits) =>
    match writtenExponent? digits with
    | some e => scaled negative significand (if down then exponent - e else exponent + e)
    | none =>
      if significand ≠ 0 ∧ !down then none else some (.float (Binary64.signed negative 0))

/-- The value of a numeral, or none when it is beyond the finite binary64 values. -/
def ofNumeral? (n : Numeral) : Option Number :=
  let (significand, dropped) := gather 0 n.whole
  match n.fraction, n.exponent, dropped with
  | [], none, [] =>
    if !n.negative then some (.int significand)
    else if significand = 0 ∨ Word.half64 < significand then
      some (.float (Binary64.signed true (Binary64.ofRatio significand 1)))
    else some (.int (-(significand : Int)))
  | [], exponent, dropped => scaledBy n.negative significand dropped.length exponent
  | fraction, exponent, dropped =>
    let (significand, ignored) := gather significand fraction
    let taken := fraction.length - ignored.length
    scaledBy n.negative significand ((dropped.length : Int) - taken) exponent

end Number
end SpecUpgrade.Json
