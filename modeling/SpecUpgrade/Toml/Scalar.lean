import SpecUpgrade.Binary64
import SpecUpgrade.Json.Form
import SpecUpgrade.Toml.Value

/-!
Strings, numbers and dates of TOML as they are written. Each reader takes what it can from the start
of a text and returns the rest.
-/

namespace SpecUpgrade.Toml

/-- Characters that may stand in a comment: all but control characters, and tabs. -/
def isPlain (c : Char) : Bool := c == '\t' || (decide (0x20 ≤ c.toNat) && c.toNat != 0x7f)

def isSpace (c : Char) : Bool := c == ' ' || c == '\t'

def skipSpace (cs : List Char) : List Char := cs.dropWhile isSpace

/-! Strings. -/

/-- The character with a code point, which must not be a surrogate. -/
def scalar? (n : Nat) : Option Char := if n.isValidChar then some (Char.ofNat n) else none

def hexNumber? (cs : List Char) : Option Nat :=
  cs.foldlM (fun n c => (Json.hexValue? c).map (n * 16 + ·)) 0

/-- The character that a one-letter escape stands for. -/
def escaped? : Char → Option Char
  | 'b' => some '\x08'
  | 't' => some '\t'
  | 'n' => some '\n'
  | 'f' => some '\x0c'
  | 'r' => some '\r'
  | '"' => some '"'
  | '\\' => some '\\'
  | _ => none

/-- The string of a literal whose opening quote is taken. -/
def readBasic : List Char → Option (List Char × List Char)
  | [] => none
  | '"' :: rest => some ([], rest)
  | '\\' :: 'u' :: a :: b :: c :: d :: rest => do
    let e ← scalar? (← hexNumber? [a, b, c, d])
    let (s, rest) ← readBasic rest
    return (e :: s, rest)
  | '\\' :: 'U' :: a :: b :: c :: d :: e :: f :: g :: h :: rest => do
    let e ← scalar? (← hexNumber? [a, b, c, d, e, f, g, h])
    let (s, rest) ← readBasic rest
    return (e :: s, rest)
  | '\\' :: c :: rest => do
    let e ← escaped? c
    let (s, rest) ← readBasic rest
    return (e :: s, rest)
  | c :: rest =>
    if isPlain c then do
      let (s, rest) ← readBasic rest
      return (c :: s, rest)
    else none

def breaksLine (cs : List Char) : Bool :=
  match skipSpace cs with
  | '\n' :: _ => true
  | '\r' :: '\n' :: _ => true
  | _ => false

/-- The string of a literal whose three opening quotes are taken. Up to two quotes may stand before
the closing ones. While `skipping`, spaces and line breaks are left out. -/
def readLongBasic (skipping : Bool) : List Char → Option (List Char × List Char)
  | [] => none
  | '"' :: '"' :: '"' :: '"' :: '"' :: rest => some (['"', '"'], rest)
  | '"' :: '"' :: '"' :: '"' :: rest => some (['"'], rest)
  | '"' :: '"' :: '"' :: rest => some ([], rest)
  | '\\' :: 'u' :: a :: b :: c :: d :: rest => do
    let e ← scalar? (← hexNumber? [a, b, c, d])
    let (s, rest) ← readLongBasic false rest
    return (e :: s, rest)
  | '\\' :: 'U' :: a :: b :: c :: d :: e :: f :: g :: h :: rest => do
    let e ← scalar? (← hexNumber? [a, b, c, d, e, f, g, h])
    let (s, rest) ← readLongBasic false rest
    return (e :: s, rest)
  | '\\' :: c :: rest =>
    if breaksLine (c :: rest) then readLongBasic true (c :: rest)
    else do
      let e ← escaped? c
      let (s, rest) ← readLongBasic false rest
      return (e :: s, rest)
  | '\r' :: '\n' :: rest =>
    if skipping then readLongBasic true rest
    else do
      let (s, rest) ← readLongBasic false rest
      return ('\n' :: s, rest)
  | c :: rest =>
    if skipping && (isSpace c || c == '\n') then readLongBasic true rest
    else if isPlain c || c == '\n' then do
      let (s, rest) ← readLongBasic false rest
      return (c :: s, rest)
    else none

/-- The string of a literal whose opening apostrophe is taken. -/
def readLiteral : List Char → Option (List Char × List Char)
  | [] => none
  | '\x27' :: rest => some ([], rest)
  | c :: rest =>
    if isPlain c then do
      let (s, rest) ← readLiteral rest
      return (c :: s, rest)
    else none

/-- The string of a literal whose three opening apostrophes are taken. -/
def readLongLiteral : List Char → Option (List Char × List Char)
  | [] => none
  | '\x27' :: '\x27' :: '\x27' :: '\x27' :: '\x27' :: rest => some (['\x27', '\x27'], rest)
  | '\x27' :: '\x27' :: '\x27' :: '\x27' :: rest => some (['\x27'], rest)
  | '\x27' :: '\x27' :: '\x27' :: rest => some ([], rest)
  | '\r' :: '\n' :: rest => do
    let (s, rest) ← readLongLiteral rest
    return ('\n' :: s, rest)
  | c :: rest =>
    if isPlain c || c == '\n' then do
      let (s, rest) ← readLongLiteral rest
      return (c :: s, rest)
    else none

/-- A line break right after the opening quotes does not count. -/
def dropBreak : List Char → List Char
  | '\n' :: rest => rest
  | '\r' :: '\n' :: rest => rest
  | cs => cs

def readString (cs : List Char) : Option (Toml × List Char) := do
  let (s, rest) ← match cs with
    | '"' :: '"' :: '"' :: rest => readLongBasic false (dropBreak rest)
    | '"' :: rest => readBasic rest
    | '\x27' :: '\x27' :: '\x27' :: rest => readLongLiteral (dropBreak rest)
    | '\x27' :: rest => readLiteral rest
    | _ => none
  return (.string (String.ofList s), rest)

/-! Numbers. -/

/-- Digits in which single underscores may stand between two digits, without the underscores. -/
def readDigits (isDigit : Char → Bool) : List Char → List Char × List Char
  | '_' :: c :: rest =>
    if isDigit c then
      let (ds, rest) := readDigits isDigit rest
      (c :: ds, rest)
    else ([], '_' :: c :: rest)
  | c :: rest =>
    if isDigit c then
      let (ds, rest) := readDigits isDigit rest
      (c :: ds, rest)
    else ([], c :: rest)
  | [] => ([], [])

/-- As `readDigits`, with at least one digit and no underscore before it. -/
def readNumber? (isDigit : Char → Bool) : List Char → Option (List Char × List Char)
  | c :: rest =>
    if isDigit c then
      let (ds, rest) := readDigits isDigit rest
      some (c :: ds, rest)
    else none
  | [] => none

def decimal (ds : List Char) : Nat := ds.foldl (fun n c => n * 10 + Json.digitValue c) 0

def readSign : List Char → Bool × List Char
  | '-' :: rest => (true, rest)
  | '+' :: rest => (false, rest)
  | cs => (false, cs)

/-- A lone zero, or digits of which the first is not zero. -/
def readWhole : List Char → Option (List Char × List Char)
  | '0' :: rest => some (['0'], rest)
  | cs => readNumber? Char.isDigit cs

/-- The integer of a sign and a magnitude, which must fit sixty-four bits. -/
def integer? (negative : Bool) (n : Nat) : Option Toml :=
  if negative then if n ≤ Word.half64 then some (.integer (-(n : Int))) else none
  else if n < Word.half64 then some (.integer n) else none

def readRadix (base : Nat) (isDigit : Char → Bool) (cs : List Char) :
    Option (Toml × List Char) := do
  let (ds, rest) ← readNumber? isDigit cs
  let n := ds.foldl (fun n c => n * base + (Json.hexValue? c).getD 0) 0
  return (← integer? false n, rest)

def readInteger : List Char → Option (Toml × List Char)
  | '0' :: 'x' :: rest => readRadix 16 (fun c => (Json.hexValue? c).isSome) rest
  | '0' :: 'o' :: rest => readRadix 8 (fun c => decide ('0' ≤ c) && decide (c ≤ '7')) rest
  | '0' :: 'b' :: rest => readRadix 2 (fun c => c == '0' || c == '1') rest
  | cs => do
    let (negative, cs) := readSign cs
    let (ds, rest) ← readWhole cs
    return (← integer? negative (decimal ds), rest)

def readExponent : List Char → Option (Int × List Char)
  | 'e' :: rest | 'E' :: rest => do
    let (negative, rest) := readSign rest
    let (ds, rest) ← readNumber? Char.isDigit rest
    return (if negative then -(decimal ds : Int) else decimal ds, rest)
  | _ => none

def readFraction : List Char → Option (List Char × List Char)
  | '.' :: rest => readNumber? Char.isDigit rest
  | _ => none

/-- Only a negative number may be beyond the finite values. -/
def float? (negative : Bool) (digits : List Char) (exponent : Int) : Option Toml :=
  let bits := Binary64.ofDecimal (decimal digits) exponent
  if bits = Binary64.infinity ∧ !negative then none
  else some (.float (Binary64.signed negative bits))

def notANumber : Nat := 0x7ff8000000000000

/-- A number with a fraction, an exponent or both, an infinity, or no number at all. -/
def readFloat (cs : List Char) : Option (Toml × List Char) :=
  let (negative, cs) := readSign cs
  match cs with
  | 'i' :: 'n' :: 'f' :: rest => some (.float (Binary64.signed negative Binary64.infinity), rest)
  | 'n' :: 'a' :: 'n' :: rest => some (.float (Binary64.signed negative notANumber), rest)
  | cs => do
    let (whole, cs) ← readWhole cs
    match readExponent cs with
    | some (exponent, rest) => return (← float? negative whole exponent, rest)
    | none =>
      let (fraction, cs) ← readFraction cs
      let (exponent, rest) := (readExponent cs).getD (0, cs)
      return (← float? negative (whole ++ fraction) (exponent - fraction.length), rest)

/-! Dates. -/

def readExactly (n : Nat) (cs : List Char) : Option (Nat × List Char) :=
  let ds := cs.take n
  if ds.length = n ∧ ds.all Char.isDigit then some (decimal ds, cs.drop n) else none

/-- A number of two digits between two bounds. -/
def readPair (least most : Nat) (cs : List Char) : Option (List Char) := do
  let (n, rest) ← readExactly 2 cs
  if least ≤ n ∧ n ≤ most then some rest else none

def readMark (mark : Char) : List Char → Option (List Char)
  | c :: rest => if c = mark then some rest else none
  | [] => none

def isLeapYear (year : Nat) : Bool := year % 4 == 0 && (year % 100 != 0 || year % 400 == 0)

def daysInMonth (year month : Nat) : Nat :=
  if month = 2 then if isLeapYear year then 29 else 28
  else if month ∈ [4, 6, 9, 11] then 30 else 31

/-- Reads a day of the calendar and returns what follows. -/
def readDay (cs : List Char) : Option (List Char) := do
  let (year, cs) ← readExactly 4 cs
  let cs ← readMark '-' cs
  let (month, cs) ← readExactly 2 cs
  let cs ← readMark '-' cs
  let (day, rest) ← readExactly 2 cs
  if 1 ≤ month ∧ month ≤ 12 ∧ 1 ≤ day ∧ day ≤ daysInMonth year month then some rest else none

/-- Reads a time of the day; a second may be a leap second and have a fraction. -/
def readTime (cs : List Char) : Option (List Char) := do
  let cs ← readPair 0 23 cs
  let cs ← readMark ':' cs
  let cs ← readPair 0 59 cs
  let cs ← readMark ':' cs
  let rest ← readPair 0 60 cs
  match rest with
  | '.' :: c :: fraction =>
    if c.isDigit then some (fraction.dropWhile Char.isDigit) else some rest
  | rest => some rest

def readOffset (cs : List Char) : Option (List Char) :=
  match cs with
  | 'Z' :: rest | 'z' :: rest => some rest
  | '+' :: rest | '-' :: rest => do
    let rest ← readPair 0 23 rest
    readPair 0 59 (← readMark ':' rest)
  | cs => some cs

/-- Reads what may follow a day: a mark, a time and its offset. -/
def readMoment (cs : List Char) : Option (List Char) :=
  match cs with
  | 'T' :: rest | 't' :: rest | ' ' :: rest =>
    match readTime rest with
    | some rest => readOffset rest
    | none => some cs
  | cs => some cs

/-- A day, a time of the day, or both. -/
def readDate (cs : List Char) : Option (Toml × List Char) := do
  let rest ← match readDay cs with
    | some rest => readMoment rest
    | none => readTime cs
  return (.date (String.ofList (cs.take (cs.length - rest.length))), rest)

/-- The value of a text that is neither in quotes nor in brackets. -/
def readBare (cs : List Char) : Option (Toml × List Char) :=
  match cs with
  | 't' :: 'r' :: 'u' :: 'e' :: rest => some (.boolean true, rest)
  | 'f' :: 'a' :: 'l' :: 's' :: 'e' :: rest => some (.boolean false, rest)
  | cs =>
    match readDate cs with
    | some read => some read
    | none =>
      match readFloat cs with
      | some read => some read
      | none => readInteger cs

end SpecUpgrade.Toml
