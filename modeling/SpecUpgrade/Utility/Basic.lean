import SpecUpgrade.Shell.Program
import SpecUpgrade.Utility.Quote

/-!
What programs have in common: their options, what they say about errors, and the files they read.
-/

namespace SpecUpgrade.Utility

open Shell

/-- What a program is called with: its name, as it is called, comes first. -/
abbrev Program := List String → Run Nat

/-- The options that a program knows. Letters stand for themselves; those before a colon take a text,
and those before a semicolon whatever stands with them. Long names come with the letter that they
stand for. -/
structure Known where
  letters : String
  long : List (String × Char) := []
  permuted : Bool := true
  status : Nat := 1

/-- Options as they were given, and the other arguments. -/
structure Given where
  options : List (Char × String) := []
  operands : List String := []

def Given.has (g : Given) (letter : Char) : Bool := g.options.any (·.1 == letter)

/-- The last text that was given with an option. -/
def Given.text? (g : Given) (letter : Char) : Option String :=
  (g.options.reverse.find? (·.1 == letter)).map (·.2)

def Given.last? (g : Given) (letters : List Char) : Option Char :=
  (g.options.reverse.find? fun o => letters.contains o.1).map (·.1)

/-- An option takes a text, or there is no such option. -/
def Known.takes? (k : Known) (letter : Char) : Option Bool :=
  match k.letters.toList.dropWhile (· != letter) with
  | _ :: ':' :: _ => some true
  | _ :: _ => if letter == ':' || letter == ';' then none else some false
  | [] => none

/-- An option takes what stands with it. -/
def Known.isAttached (k : Known) (letter : Char) : Bool :=
  match k.letters.toList.dropWhile (· != letter) with
  | _ :: ';' :: _ => true
  | _ => false

/-- Reads options; `fuel` bounds the steps. -/
def readGiven (k : Known) : Nat → List Char → List String → Given → Except String Given
  | 0, _, _, g => .ok g
  | fuel + 1, [], rest, g =>
    match rest with
    | [] => .ok g
    | word :: after =>
      match word.toList with
      | ['-', '-'] => .ok { g with operands := g.operands ++ after }
      | '-' :: '-' :: name => readLong fuel (String.ofList name) word after g
      | '-' :: c :: letters => readGiven k fuel (c :: letters) after g
      | _ =>
        if k.permuted then readGiven k fuel [] after { g with operands := g.operands ++ [word] }
        else .ok { g with operands := g.operands ++ rest }
  | fuel + 1, c :: letters, rest, g =>
    if k.isAttached c then readGiven k fuel [] rest (add c (String.ofList letters) g)
    else
    match k.takes? c with
    | none => .error ("invalid option -- '" ++ String.singleton c ++ "'")
    | some false => readGiven k fuel letters rest (add c "" g)
    | some true =>
      if !letters.isEmpty then readGiven k fuel [] rest (add c (String.ofList letters) g)
      else
        match rest with
        | text :: after => readGiven k fuel [] after (add c text g)
        | [] => .error ("option requires an argument -- '" ++ String.singleton c ++ "'")
termination_by fuel => (fuel, 0)
where
  add (c : Char) (text : String) (g : Given) : Given :=
    { g with options := g.options ++ [(c, text)] }
  readLong (fuel : Nat) (text word : String) (rest : List String) (g : Given) :
      Except String Given :=
    let (name, value) := match text.splitOn "=" with
      | name :: v :: more => (name, some (String.intercalate "=" (v :: more)))
      | _ => (text, none)
    match (k.long.find? (·.1 == name)).map (·.2) with
    | none => .error ("unrecognized option '" ++ (match value with
        | some _ => "--" ++ name
        | none => word) ++ "'")
    | some letter =>
      match k.takes? letter, value with
      | some true, some v => readGiven k fuel [] rest (add letter v g)
      | some true, none =>
        match rest with
        | v :: rest => readGiven k fuel [] rest (add letter v g)
        | [] => .error ("option '--" ++ name ++ "' requires an argument")
      | _, some v =>
        if k.isAttached letter then readGiven k fuel [] rest (add letter v g)
        else .error ("option '--" ++ name ++ "' doesn't allow an argument")
      | _, none => readGiven k fuel [] rest (add letter "" g)
  termination_by (fuel, 1)

def complain (name message : String) : Run Unit :=
  Run.printError (name ++ ": " ++ message ++ "\n")

/-- Where more is to be learned about a program. -/
def hint (name : String) : String := "Try '" ++ name ++ " --help' for more information.\n"

def misuse (name message : String) (status : Nat) : Run Nat := do
  complain name message
  Run.printError (hint name)
  return status

def withOptions (k : Known) (words : List String) (go : String → Given → Run Nat) : Run Nat := do
  let name := words.headD ""
  let arguments := words.drop 1
  let size := arguments.foldl (fun n (w : String) => n + w.length + 1) 1
  match readGiven k size [] arguments {} with
  | .error message => misuse name message k.status
  | .ok g => go name g

def complainOf (name path : String) (e : FileError) : Run Unit :=
  complain name (Quote.bare path ++ ": " ++ e.reason)

/-- Reads a file up to its end; a dash is what the program is given to read. -/
def readInput (path : String) : Run (Except FileError (List Char)) := do
  if path == "-" then Run.readAll 0
  else
    match ← Run.openFile .read path with
    | .error e => return .error e
    | .ok o => Run.readAllOpened o

/-- Prints characters; a program that cannot do so says it and fails. -/
def put (name : String) (cs : List Char) : Run Bool := do
  match ← Run.writeTo 1 cs with
  | .ok () => return true
  | .error e =>
    complain name ("write error: " ++ e.reason)
    return false

def putStatus (name : String) (cs : List Char) : Run Nat := do
  return if ← put name cs then 0 else 1

/-- The lines of a text, each with its line break but perhaps the last. -/
def linesOf (cs : List Char) : List (List Char) :=
  let rec go : List Char → List Char → List (List Char)
    | [], [] => []
    | [], line => [line.reverse]
    | '\n' :: rest, line => ('\n' :: line).reverse :: go rest []
    | c :: rest, line => go rest (c :: line)
  go cs []

def withoutBreak (line : List Char) : List Char :=
  if line.getLast? == some '\n' then line.dropLast else line

def bareLines (cs : List Char) : List (List Char) := (linesOf cs).map withoutBreak

def joinLines (lines : List (List Char)) : List Char := lines.flatMap (· ++ ['\n'])

/-- The files that a program reads: those it is given, or else its input. -/
def inputsOf (operands : List String) : List String :=
  if operands.isEmpty then ["-"] else operands

end SpecUpgrade.Utility
