/-!
The UTF-8 form of text. Bytes that are no text are decoded one ill-formed stretch at a time: a
stretch is as long as it could still be the start of a character.
-/

namespace SpecUpgrade.Utf8

/-- How many bytes follow a lead byte, and the bounds of the first of them. -/
def lead? (b : Nat) : Option (Nat × Nat × Nat) :=
  if 0xC2 ≤ b ∧ b ≤ 0xDF then some (1, 0x80, 0xBF)
  else if b = 0xE0 then some (2, 0xA0, 0xBF)
  else if b = 0xED then some (2, 0x80, 0x9F)
  else if 0xE1 ≤ b ∧ b ≤ 0xEF then some (2, 0x80, 0xBF)
  else if b = 0xF0 then some (3, 0x90, 0xBF)
  else if 0xF1 ≤ b ∧ b ≤ 0xF3 then some (3, 0x80, 0xBF)
  else if b = 0xF4 then some (3, 0x80, 0x8F)
  else none

/-- The payload of a lead byte before which `more` bytes follow. -/
def leadBits (b more : Nat) : Nat :=
  if more = 1 then b % 32 else if more = 2 then b % 16 else b % 8

/-- A character that is under way: its bits so far, how many bytes are still to come, and the bounds
of the next one. -/
structure Pending where
  bits : Nat
  more : Nat
  least : Nat
  most : Nat

def start (b : Nat) : List (Option Char) × Option Pending :=
  if b < 0x80 then ([some (Char.ofNat b)], none)
  else
    match lead? b with
    | some (more, least, most) => ([], some ⟨leadBits b more, more, least, most⟩)
    | none => ([none], none)

/-- Takes one byte: the characters that are complete, and the one that is under way. -/
def step (pending : Option Pending) (b : Nat) : List (Option Char) × Option Pending :=
  match pending with
  | none => start b
  | some p =>
    if p.least ≤ b ∧ b ≤ p.most then
      let bits := p.bits * 64 + b % 64
      if p.more ≤ 1 then ([some (Char.ofNat bits)], none)
      else ([], some ⟨bits, p.more - 1, 0x80, 0xBF⟩)
    else
      let (chars, pending) := start b
      (none :: chars, pending)

/-- The characters of bytes; an ill-formed stretch counts as none. -/
def decodeFrom (pending : Option Pending) : List UInt8 → List (Option Char)
  | [] => if pending.isSome then [none] else []
  | b :: bytes =>
    let (chars, pending) := step pending b.toNat
    chars ++ decodeFrom pending bytes

def decode (bytes : List UInt8) : List (Option Char) := decodeFrom none bytes

/-- The text of bytes, if they are well-formed. -/
def text? (bytes : List UInt8) : Option String := ((decode bytes).mapM id).map String.ofList

def replacement : Char := Char.ofNat 0xFFFD

/-- The text of bytes with every ill-formed stretch replaced. -/
def lossy (bytes : List UInt8) : String :=
  String.ofList ((decode bytes).map (·.getD replacement))

def encode (text : String) : List UInt8 := text.toUTF8.toList

end SpecUpgrade.Utf8
