import SpecUpgrade.Shell.Arithmetic
import SpecUpgrade.Text.Decimal

/-!
Formats: texts with escapes, and with directives that take arguments. A format is used again as long
as it takes arguments and some are left.
-/

namespace SpecUpgrade.Utility

/-! Escapes. -/

def isOctal (c : Char) : Bool := decide ('0' ≤ c) && decide (c ≤ '7')

def escaped? : Char → Option Char
  | 'a' => some (Char.ofNat 7)
  | 'b' => some (Char.ofNat 8)
  | 't' => some '\t'
  | 'n' => some '\n'
  | 'v' => some (Char.ofNat 11)
  | 'f' => some (Char.ofNat 12)
  | 'r' => some '\r'
  | 'e' => some (Char.ofNat 27)
  | '\\' => some '\\'
  | _ => none

/-- The byte of up to so many digits in a base, and what comes after them. -/
def digitsByte (base most : Nat) (cs : List Char) : Char × List Char :=
  let ds := (cs.take most).takeWhile fun c => (Shell.Arithmetic.digit? base c).isSome
  let n := ds.foldl (fun n c => n * base + (Shell.Arithmetic.digit? base c).getD 0) 0
  (Char.ofNat (n % 256), cs.drop ds.length)

/-- The character of an escape after its backslash, and what comes after it; a backslash that starts
no escape stands for itself. -/
def readEscape (cs : List Char) : Char × List Char :=
  match cs with
  | [] => ('\\', [])
  | c :: rest =>
    if isOctal c then digitsByte 8 3 cs
    else
      match escaped? c with
      | some e => (e, rest)
      | none => ('\\', cs)

/-- A text with its escapes put in, in which an octal one may start with a zero, and whether output
ends there. -/
def unescape : Nat → List Char → List Char → List Char × Bool
  | 0, _, done => (done.reverse, false)
  | _ + 1, [], done => (done.reverse, false)
  | fuel + 1, c :: rest, done =>
    if c != '\\' then unescape fuel rest (c :: done)
    else
      match rest with
      | 'c' :: _ => (done.reverse, true)
      | '0' :: d :: after =>
        let (e, after) := readEscape (if isOctal d then d :: after else '0' :: d :: after)
        unescape fuel after (e :: done)
      | rest =>
        let (e, after) := readEscape rest
        unescape fuel after (e :: done)

def unescapeAll (cs : List Char) : List Char × Bool := unescape (cs.length + 1) cs []

/-! Directives. -/

/-- What is printed, and what is left to be printed with. -/
structure Printing where
  out : List Char := []
  arguments : List String := []
  warnings : List String := []
  failure : Option String := none
  ended : Bool := false

/-- A directive before its letter. -/
structure Directive where
  flags : List Char := []
  width : Nat := 0
  precision : Option Nat := none

def Directive.has (d : Directive) (flag : Char) : Bool := d.flags.contains flag

def Directive.padded (d : Directive) (text : String) : List Char :=
  let blanks := List.replicate (d.width - text.length) ' '
  if d.has '-' then text.toList ++ blanks else blanks ++ text.toList

/-- Digits with a sign before them, brought to the width of a directive with zeros if it asks for
them. -/
def Directive.paddedNumber (d : Directive) (sign body : String) (zeros : Bool) : List Char :=
  if d.has '0' && !d.has '-' && zeros then
    sign.toList ++ List.replicate (d.width - sign.length - body.length) '0' ++ body.toList
  else d.padded (sign ++ body)

def Directive.sign (d : Directive) (negative : Bool) : String :=
  if negative then "-" else if d.has '+' then "+" else if d.has ' ' then " " else ""

def Directive.whole (d : Directive) (letter : Char) (n : Int) : List Char :=
  let isSigned := letter == 'd' || letter == 'i'
  let value := if isSigned then n.natAbs else (Int.emod n Word.bound64).toNat
  let base := if letter == 'o' then 8 else if letter == 'x' || letter == 'X' then 16 else 10
  let body := String.ofList (Nat.toDigits base value)
  let body := if letter == 'X' then body.toUpper else body
  let body := if d.precision == some 0 && value == 0 then "" else body
  let body := String.ofList (List.replicate (d.precision.getD 0 - body.length) '0') ++ body
  let body := if d.has '#' && letter == 'o' && !body.startsWith "0" then "0" ++ body else body
  let mark := if d.has '#' && value != 0 && base == 16 then
    (if letter == 'X' then "0X" else "0x") else ""
  let sign := if isSigned then d.sign (n < 0) else ""
  d.paddedNumber (sign ++ mark) body d.precision.isNone

/-! Arguments. -/

/-- How formats of a program differ from those of a shell: what is said about faults. -/
structure Dialect where
  notNumeric : String → String
  notWhole : String → String
  outOfRange : String → String
  unknown : String → String
  missing : String

def shellDialect : Dialect where
  notNumeric text := text ++ ": expected numeric value"
  notWhole text := text ++ ": not completely converted"
  outOfRange text := text ++ ": Numerical result out of range"
  unknown directive := directive ++ ": invalid directive"
  missing := "missing format character"

def programDialect : Dialect where
  notNumeric text := "'" ++ text ++ "': expected a numeric value"
  notWhole text := "'" ++ text ++ "': value not completely converted"
  outOfRange text := "'" ++ text ++ "': Numerical result out of range"
  unknown directive := directive ++ ": invalid conversion specification"
  missing := "%: invalid conversion specification"

namespace Printing

def take (p : Printing) : Option String × Printing :=
  match p.arguments with
  | a :: rest => (some a, { p with arguments := rest })
  | [] => (none, p)

def warn (p : Printing) (message : String) : Printing :=
  { p with warnings := message :: p.warnings }

def splitSign (cs : List Char) : Bool × List Char :=
  match cs with
  | '-' :: rest => (true, rest)
  | '+' :: rest => (false, rest)
  | cs => (false, cs)

/-- Says what is wrong with an argument of which a part is left over. -/
def check (p : Printing) (dialect : Dialect) (text : String) (rest : List Char) : Printing :=
  if rest.isEmpty then p
  else if rest.length == text.length then p.warn (dialect.notNumeric text)
  else p.warn (dialect.notWhole text)

def takeWhole (p : Printing) (dialect : Dialect) (isSigned : Bool) : Int × Printing :=
  let (a, p) := p.take
  match a with
  | none => (0, p)
  | some text =>
    match text.toList with
    | q :: rest =>
      if q == '\x27' || q == '"' then (((rest.headD (Char.ofNat 0)).toNat : Int), p)
      else
        let blanks := text.toList.takeWhile Shell.Arithmetic.isBlank
        let (negative, cs) := splitSign (text.toList.drop blanks.length)
        if ((cs.head?).map Char.isDigit).getD false then
          let (n, rest) := Shell.Arithmetic.readNumber cs
          let value : Int := if negative then -(n : Int) else n
          let p := p.check dialect text rest
          let (least, most) : Int × Int := if isSigned
            then (-(Word.half64 : Int), Word.half64 - 1)
            else (-(Word.bound64 : Int) + 1, Word.bound64 - 1)
          if value < least then (least, p.warn (dialect.outOfRange text))
          else if most < value then (most, p.warn (dialect.outOfRange text))
          else (value, p)
        else (0, p.warn (dialect.notNumeric text))
    | [] => (0, p)

def put (p : Printing) (cs : List Char) : Printing := { p with out := cs.reverse ++ p.out }

/-- Prints the next argument by the letter of a directive. -/
def convert (p : Printing) (dialect : Dialect) (d : Directive) (letter : Char)
    (written : String) : Printing :=
  let cut (text : String) : String := match d.precision with
    | some n => (text.take n).toString
    | none => text
  if letter == 's' then
    let (a, p) := p.take
    p.put (d.padded (cut (a.getD "")))
  else if letter == 'b' then
    let (a, p) := p.take
    let (cs, ended) := unescapeAll (a.getD "").toList
    { p.put (d.padded (cut (String.ofList cs))) with ended := ended }
  else if letter == 'c' then
    let (a, p) := p.take
    let c := match a with
      | some text => text.toList.headD (Char.ofNat 0)
      | none => Char.ofNat 0
    p.put (d.padded (String.singleton c))
  else if "diouxX".toList.contains letter then
    let (n, p) := p.takeWhole dialect (letter == 'd' || letter == 'i')
    p.put (d.whole letter n)
  else { p with failure := some (dialect.unknown written) }

end Printing

def readCount (cs : List Char) : Option Nat × List Char :=
  match Decimal.takeDigits cs with
  | ([], rest) => (none, rest)
  | (ds, rest) => (some (Decimal.valueOf ds), rest)

/-- Reads the flags, the width and the precision of a directive; a star takes an argument. -/
def readDirective (dialect : Dialect) (p : Printing) (cs : List Char) :
    Directive × Printing × List Char :=
  let flags := cs.takeWhile fun c => "#-+ 0".toList.contains c
  let cs := cs.drop flags.length
  let (width, flags, p, cs) : Nat × List Char × Printing × List Char := match cs with
    | '*' :: rest =>
      let (n, p) := p.takeWhole dialect true
      (n.natAbs, if n < 0 then '-' :: flags else flags, p, rest)
    | cs =>
      let (n, rest) := readCount cs
      (n.getD 0, flags, p, rest)
  match cs with
  | '.' :: '*' :: rest =>
    let (n, p) := p.takeWhole dialect true
    (⟨flags, width, if n < 0 then none else some n.toNat⟩, p, rest)
  | '.' :: rest =>
    let (n, rest) := readCount rest
    (⟨flags, width, some (n.getD 0)⟩, p, rest)
  | cs => (⟨flags, width, none⟩, p, cs)

def printOnce (dialect : Dialect) : Nat → List Char → Printing → Printing
  | 0, _, p => p
  | _ + 1, [], p => p
  | fuel + 1, c :: rest, p =>
    if p.ended || p.failure.isSome then p
    else if c == '\\' then
      let (e, after) := readEscape rest
      printOnce dialect fuel after (p.put [e])
    else if c != '%' then printOnce dialect fuel rest (p.put [c])
    else
      match rest with
      | '%' :: rest => printOnce dialect fuel rest (p.put ['%'])
      | rest =>
        let (d, p, after) := readDirective dialect p rest
        match after with
        | [] => { p with failure := some dialect.missing }
        | letter :: tail =>
          let written := '%' :: rest.take (rest.length - tail.length)
          printOnce dialect fuel tail (p.convert dialect d letter (String.ofList written))

/-- Prints a format as often as it takes arguments. -/
def printAll (dialect : Dialect) (format : List Char) : Nat → Printing → Printing
  | 0, p => p
  | fuel + 1, p =>
    let q := printOnce dialect (format.length + 1) format p
    if q.ended || q.failure.isSome || q.arguments.isEmpty ||
        q.arguments.length == p.arguments.length then q
    else printAll dialect format fuel q

def printFormat (dialect : Dialect) (format : String) (arguments : List String) : Printing :=
  printAll dialect format.toList (arguments.length + 1) { arguments := arguments }

end SpecUpgrade.Utility
