import SpecUpgrade.Shell.Expansion
import SpecUpgrade.Text.Decimal

/-!
What the built-in commands of a shell have in common: their options, numbers among their arguments,
and texts in quotes.
-/

namespace SpecUpgrade.Shell.Run

/-- The letters in the first arguments. A colon after a letter of `known` says that it takes a text,
which is the rest of the argument or the next one. -/
def readLetters (known : List Char) : Nat → List Char → List String → List (Char × String) →
    Run (List (Char × String) × List String)
  | 0, _, rest, done => return (done.reverse, rest)
  | fuel + 1, [], rest, done => do
    match rest with
    | [] => return (done.reverse, [])
    | word :: after =>
      match word.toList with
      | ['-', '-'] => return (done.reverse, after)
      | '-' :: c :: letters => readLetters known fuel (c :: letters) after done
      | _ => return (done.reverse, rest)
  | fuel + 1, c :: letters, rest, done => do
    match known.dropWhile (· != c) with
    | _ :: ':' :: _ =>
      if !letters.isEmpty then
        readLetters known fuel [] rest ((c, String.ofList letters) :: done)
      else
        match rest with
        | text :: after => readLetters known fuel [] after ((c, text) :: done)
        | [] => fail ("No arg for -" ++ String.singleton c ++ " option")
    | _ :: _ =>
      if c == ':' then fail "Illegal option -:"
      else readLetters known fuel letters rest ((c, "") :: done)
    | [] => fail ("Illegal option -" ++ String.singleton c)

def options (known : String) (arguments : List String) :
    Run (List (Char × String) × List String) :=
  let size := arguments.foldl (fun n (word : String) => n + word.length + 1) 1
  readLetters known.toList size [] arguments []

def number (text : String) : Run Nat := do
  match (Decimal.whole? text).filter fun n => decide (0 ≤ n) && decide (n < 2147483648) with
  | some n => return n.toNat
  | none => fail ("Illegal number: " ++ text)

/-- A text between single quotes; single quotes in it stand between double ones. -/
def quoted (text : String) : String :=
  let rec go : Nat → List Char → List Char
    | 0, _ => []
    | fuel + 1, cs =>
      let plain := cs.takeWhile (· != '\x27')
      let rest := cs.drop plain.length
      let marks := rest.takeWhile (· == '\x27')
      let after := rest.drop marks.length
      ['\x27'] ++ plain ++ ['\x27'] ++
        if marks.isEmpty then []
        else ['"'] ++ marks ++ ['"'] ++ (if after.isEmpty then [] else go fuel after)
  String.ofList (go (text.length + 1) text.toList)

def checkName (text : String) : Run Unit :=
  if isName text then return else fail (text ++ ": bad variable name")

def splitAssignment (text : String) : String × Option String :=
  let name := text.toList.takeWhile (· != '=')
  match text.toList.drop name.length with
  | [] => (text, none)
  | _ :: value => (String.ofList name, some (String.ofList value))

end SpecUpgrade.Shell.Run
