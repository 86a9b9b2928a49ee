import SpecUpgrade.Toml.Scalar

/-!
TOML documents. A document is a sequence of lines, each of which is blank, opens a table or adds a
key with its value to the open table.
-/

namespace SpecUpgrade.Toml

/-- Arrays and tables in braces nest less deep than this, and paths of keys are shorter. -/
def nestingBound : Nat := 80

/-! Keys. -/

def isBareKeyChar (c : Char) : Bool := c.isAlphanum || c == '_' || c == '-'

/-- One part of a key: in quotes, or made of letters, digits, underscores and dashes. -/
def readKeyPart (cs : List Char) : Option (String × List Char) :=
  match cs with
  | '"' :: rest => (readBasic rest).map fun (s, rest) => (String.ofList s, rest)
  | '\x27' :: rest => (readLiteral rest).map fun (s, rest) => (String.ofList s, rest)
  | cs =>
    match cs.takeWhile isBareKeyChar with
    | [] => none
    | part => some (String.ofList part, cs.dropWhile isBareKeyChar)

/-- The parts of a key, with dots between them and spaces around each. Each step takes a character,
so the length of the text is `fuel` enough. -/
def readKeyParts : Nat → List Char → Option (List String × List Char)
  | 0, _ => none
  | fuel + 1, cs => do
    let (part, rest) ← readKeyPart (skipSpace cs)
    match skipSpace rest with
    | '.' :: rest =>
      let (parts, rest) ← readKeyParts fuel rest
      return (part :: parts, rest)
    | rest => return ([part], rest)

/-- A key: the path that leads to a table and the name in it. -/
def readKey (cs : List Char) : Option ((List String × String) × List Char) := do
  let (parts, rest) ← readKeyParts cs.length cs
  let key ← parts.getLast?
  if nestingBound ≤ parts.length then none else return ((parts.dropLast, key), rest)

/-! Values. -/

def skipGaps (inComment : Bool) : List Char → List Char
  | [] => []
  | '\n' :: rest => skipGaps false rest
  | '\r' :: '\n' :: rest => skipGaps false rest
  | c :: rest =>
    if inComment then if isPlain c then skipGaps true rest else c :: rest
    else if isSpace c then skipGaps false rest
    else if c = '#' then skipGaps true rest
    else c :: rest

mutual

/-- Reads a value in which less than `depth` containers nest; `fuel` bounds the steps. -/
def readValue (depth : Nat) : Nat → List Char → Option (Toml × List Char)
  | 0, _ => none
  | fuel + 1, cs =>
    match cs with
    | '[' :: rest =>
      match depth with
      | 0 | 1 => none
      | depth + 1 => (readItems depth fuel rest).map fun (items, rest) => (.array items, rest)
    | '\x7b' :: rest =>
      match depth with
      | 0 | 1 => none
      | depth + 1 =>
        match skipSpace rest with
        | '\x7d' :: rest => some (.table .inline [], rest)
        | rest => (readMembers depth fuel ⟨.inline, []⟩ rest).map fun (t, rest) => (t.toml, rest)
    | '"' :: _ | '\x27' :: _ => readString cs
    | cs => readBare cs

/-- Reads the items of an array up to its closing bracket. -/
def readItems (depth : Nat) : Nat → List Char → Option (List Toml × List Char)
  | 0, _ => none
  | fuel + 1, cs =>
    match skipGaps false cs with
    | ']' :: rest => some ([], rest)
    | cs => do
      let (item, rest) ← readValue depth fuel cs
      match skipGaps false rest with
      | ']' :: rest => return ([item], rest)
      | ',' :: rest =>
        let (items, rest) ← readItems depth fuel rest
        return (item :: items, rest)
      | _ => none

/-- Reads members of a table up to its closing brace, at least one. -/
def readMembers (depth : Nat) : Nat → Table → List Char → Option (Table × List Char)
  | 0, _, _ => none
  | fuel + 1, t, cs => do
    let ((path, key), rest) ← readKey cs
    match rest with
    | '=' :: rest =>
      let (value, rest) ← readValue depth fuel (skipSpace rest)
      let t ← t.add path key value
      match skipSpace rest with
      | '\x7d' :: rest => return (t, rest)
      | ',' :: rest => readMembers depth fuel t rest
      | _ => none
    | _ => none

end

/-! Lines. -/

/-- Takes what may stand at the end of a line: spaces, a comment, and the line break unless the
document ends. -/
def readLineEnd (cs : List Char) : Option (List Char) :=
  let cs := match skipSpace cs with
    | '#' :: rest => rest.dropWhile isPlain
    | cs => cs
  match cs with
  | [] => some []
  | '\n' :: rest => some rest
  | '\r' :: '\n' :: rest => some rest
  | _ => none

def readHeader (listed : Bool) (cs : List Char) : Option (Header × List Char) := do
  let ((path, key), rest) ← readKey cs
  match rest, listed with
  | ']' :: ']' :: rest, true => return (⟨path, key, true⟩, ← readLineEnd rest)
  | ']' :: rest, false => return (⟨path, key, false⟩, ← readLineEnd rest)
  | _, _ => none

def readLine (d : Draft) (cs : List Char) : Option (Draft × List Char) :=
  match skipSpace cs with
  | [] => some (d, [])
  | '#' :: rest => (readLineEnd ('#' :: rest)).map (d, ·)
  | '\n' :: rest => some (d, rest)
  | '\r' :: '\n' :: rest => some (d, rest)
  | '[' :: '[' :: rest => do
    let (h, rest) ← readHeader true rest
    return (← d.openTable h, rest)
  | '[' :: rest => do
    let (h, rest) ← readHeader false rest
    return (← d.openTable h, rest)
  | cs => do
    let ((path, key), rest) ← readKey cs
    match rest with
    | '=' :: rest =>
      let (value, rest) ← readValue nestingBound (2 * rest.length + 2) (skipSpace rest)
      return (← d.add path key value, ← readLineEnd rest)
    | _ => none

def readLines : Nat → Draft → List Char → Option Draft
  | 0, _, _ => none
  | _ + 1, d, [] => some d
  | fuel + 1, d, cs => do
    let (d, rest) ← readLine d cs
    readLines fuel d rest

def byteOrderMark : Char := Char.ofNat 0xFEFF

def dropMark : List Char → List Char
  | c :: rest => if c = byteOrderMark then rest else c :: rest
  | [] => []

def ofText? (text : String) : Option Toml := do
  let cs := dropMark text.toList
  let d ← readLines (cs.length + 1) .start cs
  return (← d.close).toml

end SpecUpgrade.Toml
