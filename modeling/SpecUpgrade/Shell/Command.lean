import SpecUpgrade.Machine.Basic

/-!
Commands of a shell. A word is kept as it is written, part by part, with its quotes resolved and its
parameters not; a text in a shell has a character for each byte.
-/

namespace SpecUpgrade.Shell

inductive Operation where
  | value
  | length
  | orElse
  | assign
  | require
  | instead
  | cutFront (longest : Bool)
  | cutBack (longest : Bool)
  | unknown
  deriving DecidableEq, Repr

mutual

/-- A part of a word. What is quoted is neither divided into fields nor a pattern; `mark` stands
where quotes open, so that empty quotes leave a field. With `orNull` an operation takes a parameter
without text for one that is not set. -/
inductive Part where
  | char (c : Char) (quoted : Bool)
  | mark
  | parameter (name : String) (operation : Operation) (orNull : Bool) (word : List Part)
    (quoted : Bool)
  | output (body : Command) (quoted : Bool)
  | sum (word : List Part) (quoted : Bool)

/-- Where a descriptor of a command leads: to a file, to what another descriptor leads to, or to the
here-document of a number. -/
inductive Redirect where
  | file (descriptor : Nat) (mode : Machine.Mode) (forced : Bool) (target : List Part)
  | duplicate (descriptor : Nat) (target : List Part)
  | document (descriptor : Nat) (number : Nat)

/-- A command, with the line it is on where that is told to the user. -/
inductive Command where
  | nothing
  | simple (line : Nat) (assignments words : List (List Part)) (redirects : List Redirect)
  | redirected (line : Nat) (body : Command) (redirects : List Redirect)
  | subshell (line : Nat) (body : Command) (redirects : List Redirect)
  | pipeline (commands : List Command)
  | background (body : Command)
  | sequence (first second : Command)
  | onSuccess (first second : Command)
  | onFailure (first second : Command)
  | inverted (body : Command)
  | branch (condition body other : Command)
  | loop (awaited : Bool) (condition body : Command)
  | each (line : Nat) (name : String) (words : List (List Part)) (body : Command)
  | choice (line : Nat) (word : List Part) (arms : List (List (List Part) × Command))
  | define (line : Nat) (name : String) (body : Command)

end

instance : Inhabited Command := ⟨.nothing⟩

abbrev Word := List Part

/-- The text of a word in which nothing is quoted or to be expanded. -/
def literal? (word : Word) : Option String :=
  (word.mapM fun (p : Part) => match p with
    | .char c false => some c
    | _ => none).map String.ofList

/-- The text of a word without its quotes, for one in which nothing is expanded. -/
def plainText (word : Word) : String :=
  String.ofList (word.filterMap fun (p : Part) => match p with
    | .char c _ => some c
    | _ => none)

def isQuoted (word : Word) : Bool :=
  word.any fun (p : Part) => match p with
    | .char _ quoted => quoted
    | .mark => true
    | _ => false

def isNameStart (c : Char) : Bool := c.isAlpha || c == '_'

def isNameChar (c : Char) : Bool := c.isAlphanum || c == '_'

def isName (text : String) : Bool :=
  match text.toList with
  | c :: rest => isNameStart c && rest.all isNameChar
  | [] => false

/-- Parameters whose name is one sign. -/
def isSpecial (c : Char) : Bool := "#?$!-*@".toList.contains c || c.isDigit

/-- The name of an assignment and the value, if a word starts with a name and an equals sign. -/
def assignment? (word : Word) : Option (String × Word) :=
  let name := word.takeWhile fun (p : Part) => match p with
    | .char c false => isNameChar c
    | _ => false
  match word.drop name.length with
  | .char '=' false :: value =>
    if isName (plainText name) then some (plainText name, value) else none
  | _ => none

end SpecUpgrade.Shell
