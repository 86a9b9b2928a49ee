import SpecUpgrade.Json.Number
import SpecUpgrade.SortedMap

/-!
JSON values and their reading. A text that nests more than a fixed number of containers, holds a
number beyond binary64 or an unpaired surrogate has no value.
-/

namespace SpecUpgrade

inductive Json where
  | null
  | bool (b : Bool)
  | num (n : Json.Number)
  | str (s : String)
  | arr (items : List Json)
  | obj (members : List (String × Json))
  deriving Repr

namespace Json

/-- The characters that the pieces of a literal stand for. Units pair up as surrogates. -/
def decodePieces : List Piece → Option (List Char)
  | [] => some []
  | .char c :: rest => (decodePieces rest).map (c :: ·)
  | .unit u :: .unit v :: rest =>
    if u < 0xD800 ∨ 0xDFFF < u then
      (decodePieces (.unit v :: rest)).map (Char.ofNat u :: ·)
    else if u < 0xDC00 ∧ 0xDC00 ≤ v ∧ v ≤ 0xDFFF then
      (decodePieces rest).map (Char.ofNat (0x10000 + (u - 0xD800) * 0x400 + (v - 0xDC00)) :: ·)
    else none
  | .unit u :: rest =>
    if u < 0xD800 ∨ 0xDFFF < u then (decodePieces rest).map (Char.ofNat u :: ·) else none

def textOfPieces? (pieces : List Piece) : Option String :=
  (decodePieces pieces).map String.ofList

def maxDepth : Nat := 127

mutual

/-- The value of a form in which at most `depth` containers nest. -/
def ofForm? (depth : Nat) : Form → Option Json
  | .null => some .null
  | .bool b => some (.bool b)
  | .number n => (Number.ofNumeral? n).map .num
  | .string pieces => (textOfPieces? pieces).map .str
  | .array items =>
    match depth with
    | 0 => none
    | depth + 1 => (ofItems? depth items).map .arr
  | .object members =>
    match depth with
    | 0 => none
    | depth + 1 => (ofMembers? depth members).map fun ms => .obj (SortedMap.ofList ms)

def ofItems? (depth : Nat) : List Form → Option (List Json)
  | [] => some []
  | item :: items => do
    let item ← ofForm? depth item
    let items ← ofItems? depth items
    return item :: items

def ofMembers? (depth : Nat) : List (List Piece × Form) → Option (List (String × Json))
  | [] => some []
  | (key, form) :: members => do
    let key ← textOfPieces? key
    let value ← ofForm? depth form
    let members ← ofMembers? depth members
    return (key, value) :: members

end

def ofText? (text : String) : Option Json := do
  ofForm? maxDepth (← Form.ofText? text)

def member? (key : String) : Json → Option Json
  | .obj members => SortedMap.find? key members
  | _ => none

end Json
end SpecUpgrade
