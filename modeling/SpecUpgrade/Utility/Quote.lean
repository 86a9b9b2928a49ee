/-!
Names of files and other words as programs show them in messages: between quotes, with signs for
what cannot be printed.
-/

namespace SpecUpgrade.Utility.Quote

def isPrintable (c : Char) : Bool := 32 ≤ c.toNat && c.toNat < 127

def octal (n : Nat) : List Char :=
  [Nat.digitChar (n / 64 % 8), Nat.digitChar (n / 8 % 8), Nat.digitChar (n % 8)]

/-- The sign for a character that cannot be printed. -/
def escape (c : Char) : List Char :=
  match c.toNat with
  | 7 => ['\\', 'a']
  | 8 => ['\\', 'b']
  | 9 => ['\\', 't']
  | 10 => ['\\', 'n']
  | 11 => ['\\', 'v']
  | 12 => ['\\', 'f']
  | 13 => ['\\', 'r']
  | n => '\\' :: octal n

/-- A word between single quotes, with backslashes before what has a meaning there. -/
def word (text : String) : String :=
  let each (c : Char) : List Char :=
    if c == '\x27' || c == '\\' then ['\\', c] else if isPrintable c then [c] else escape c
  "'" ++ String.ofList (text.toList.flatMap each) ++ "'"

/-- Characters that stand for themselves in a shell. -/
def isPlain (c : Char) : Bool := c.isAlphanum || "%+,-./:]_@".toList.contains c

/-- The inside of single quotes for a shell, where what cannot be printed is written between quotes
of its own. -/
def shellInside : Bool → List Char → List Char
  | open?, [] => if open? then ['\x27'] else []
  | open?, c :: rest =>
    if isPrintable c then
      let before := if open? then "''".toList else []
      let each := if c == '\x27' then "'\\''".toList else [c]
      before ++ each ++ shellInside false rest
    else
      let before := if open? then [] else "'$'".toList
      before ++ escape c ++ shellInside true rest

/-- A name in quotes as a shell would read it. -/
def name (text : String) : String :=
  let cs := text.toList
  if cs.contains '\x27' && cs.all (fun c => isPlain c || c == ' ' || c == '\x27') then
    "\"" ++ text ++ "\""
  else
    let inside := shellInside false cs
    let closed := match cs.getLast? with
      | some c => !isPrintable c
      | none => false
    "'" ++ String.ofList inside ++ (if closed then "" else "'")

def needsQuotes (text : String) : Bool :=
  let cs := text.toList
  cs.isEmpty || cs == ['\x7b'] || cs == ['\x7d'] ||
    cs.any (fun c => !isPlain c && !"#~\x7b\x7d".toList.contains c) ||
    cs.head? == some '#' || cs.head? == some '~'

/-- A name, in quotes if it needs them. -/
def bare (text : String) : String := if needsQuotes text then name text else text

end SpecUpgrade.Utility.Quote
