import SpecUpgrade.Binary64
import SpecUpgrade.Dump.Term
import SpecUpgrade.Json.Value
import SpecUpgrade.Text.Blank

/-!
The grammar of dumps, read with ordered choice. A reader gives what it read and the text after it.
-/

namespace SpecUpgrade.Dump

/-- A kind is made of letters, digits and underscores of the ASCII range. -/
def isKindChar (c : Char) : Bool := c.isAlphanum || c == '_'

def value (digits : List Char) : Nat :=
  digits.foldl (fun n c => n * 10 + Json.digitValue c) 0

/-- Digits that fit sixty-four bits. -/
def readNat (cs : List Char) : Option (Nat × List Char) :=
  let digits := cs.takeWhile Char.isDigit
  if digits.isEmpty ∨ Word.bound64 ≤ value digits then none
  else some (value digits, cs.dropWhile Char.isDigit)

def readBounds (cs : List Char) : Option (Bounds × List Char) := do
  let (start, cs) ← readNat cs
  match cs with
  | '.' :: '.' :: cs =>
    let (stop, cs) ← readNat cs
    return ((start, stop), cs)
  | _ => none

/-- Bounds after a mark and blanks before it. Where they cannot be read nothing is taken. -/
def readMarked (mark : Char) (cs : List Char) : Option Bounds × List Char :=
  match Json.skipBlank cs with
  | c :: rest =>
    if c = mark then
      match readBounds rest with
      | some (bounds, rest) => (some bounds, rest)
      | none => (none, cs)
    else (none, cs)
  | [] => (none, cs)

/-- A string literal whose opening quote is still to come. -/
def readString : List Char → Option (String × List Char)
  | '"' :: rest => do
    let (pieces, rest) ← Json.readPieces rest
    let text ← Json.textOfPieces? pieces
    return (text, rest)
  | _ => none

/-- A bare symbol runs up to white space or a parenthesis. -/
def isSymbolChar (c : Char) : Bool := !Text.isBlank c && c != '(' && c != ')'

/-- The text of a symbol after its colon: a string literal, or else a bare run. -/
def readSymbol (cs : List Char) : Option (String × List Char) :=
  match readString cs with
  | some read => some read
  | none =>
    let run := cs.takeWhile isSymbolChar
    if run.isEmpty then none else some (String.ofList run, cs.dropWhile isSymbolChar)

def isNumberChar (c : Char) : Bool :=
  c.isDigit || c == '.' || c == 'e' || c == 'E' || c == '-' || c == '+'

def exponent? : List Char → Option Int
  | [] => some 0
  | e :: rest =>
    if e = 'e' ∨ e = 'E' then
      let (negative, digits) := match rest with
        | '-' :: digits => (true, digits)
        | '+' :: digits => (false, digits)
        | digits => (false, digits)
      if digits.isEmpty ∨ !digits.all Char.isDigit then none
      else some (if negative then -(value digits : Int) else value digits)
    else none

/-- The digits after the point of a decimal number and what follows them. -/
def fraction : List Char → List Char × List Char
  | '.' :: rest => (rest.takeWhile Char.isDigit, rest.dropWhile Char.isDigit)
  | cs => ([], cs)

/-- The binary64 number nearest to a decimal text, which starts with a digit. -/
def decimal? (cs : List Char) : Option Nat := do
  let whole := cs.takeWhile Char.isDigit
  let (fraction, rest) := fraction (cs.dropWhile Char.isDigit)
  let e ← exponent? rest
  return Binary64.ofDecimal (value (whole ++ fraction)) (e - fraction.length)

/-- The number that a run of number characters stands for. -/
def number? (negative : Bool) (run : List Char) : Option Literal :=
  let n : Int := if negative then -(value run : Int) else value run
  if run.all Char.isDigit && decide (-(Word.half64 : Int) ≤ n) && decide (n < Word.half64)
  then some (.int n)
  else (decimal? run).map fun bits => .float (Binary64.signed negative bits)

def readNumber (negative : Bool) (cs : List Char) : Option (Literal × List Char) :=
  match cs with
  | c :: _ =>
    if c.isDigit then
      (number? negative (cs.takeWhile isNumberChar)).map (·, cs.dropWhile isNumberChar)
    else none
  | [] => none

/-- A word is a run of ASCII letters; three words stand for literals. -/
def readWord (cs : List Char) : Option (Literal × List Char) :=
  let rest := cs.dropWhile Char.isAlpha
  match String.ofList (cs.takeWhile Char.isAlpha) with
  | "nil" => some (.nil, rest)
  | "true" => some (.bool true, rest)
  | "false" => some (.bool false, rest)
  | _ => none

def readLiteral (cs : List Char) : Option (Literal × List Char) :=
  match cs with
  | ':' :: rest => (readSymbol rest).map fun (name, rest) => (.sym name, rest)
  | '"' :: _ => (readString cs).map fun (text, rest) => (.str text, rest)
  | '-' :: rest => readNumber true rest
  | c :: _ => if c.isDigit then readNumber false cs else readWord cs
  | [] => none

mutual

/-- Reads a node. A failure gives the text from where the node could not be read on; the children
take as much as they can and never fail. -/
def readNode : Nat → List Char → Except (List Char) ((Head × List Term) × List Char)
  | 0, cs => .error cs
  | fuel + 1, cs =>
    match cs with
    | '(' :: rest =>
      let rest := Json.skipBlank rest
      let kind := rest.takeWhile isKindChar
      if kind.isEmpty then .error rest
      else
        let (range, rest) := readMarked '@' (rest.dropWhile isKindChar)
        let (heredoc, rest) := readMarked '~' rest
        let (children, rest) := readChildren fuel rest
        match Json.skipBlank rest with
        | ')' :: rest => .ok ((⟨String.ofList kind, range, heredoc⟩, children), rest)
        | rest => .error rest
    | cs => .error cs

/-- Reads children, each after any blanks, as long as there is one. -/
def readChildren : Nat → List Char → List Term × List Char
  | 0, cs => ([], cs)
  | fuel + 1, cs =>
    match readTerm fuel (Json.skipBlank cs) with
    | none => ([], cs)
    | some (term, rest) =>
      let (terms, rest) := readChildren fuel rest
      (term :: terms, rest)

def readTerm : Nat → List Char → Option (Term × List Char)
  | 0, _ => none
  | fuel + 1, cs =>
    match readNode fuel cs with
    | .ok ((head, children), rest) => some (.node head children, rest)
    | .error _ => (readLiteral cs).map fun (l, rest) => (.literal l, rest)

end

/-- Reads a whole dump: one node with blanks around it. Every three steps of the reader consume a
character, which bounds the steps. -/
def read (text : String) : Except TreeError (Head × List Term) :=
  let cs := text.toList
  let fault (rest : List Char) : TreeError :=
    .malformed (.unreadable (Text.byteLength cs - Text.byteLength rest))
  match readNode (3 * cs.length + 3) (Json.skipBlank cs) with
  | .error rest => .error (fault rest)
  | .ok (root, rest) =>
    match Json.skipBlank rest with
    | [] => .ok root
    | rest => .error (fault rest)

end SpecUpgrade.Dump
