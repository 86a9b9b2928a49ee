import SpecUpgrade.Shell.Command

/-!
The text of a script while it is read, and its tokens. Lines are counted, and a backslash before a
line break joins two lines.
-/

namespace SpecUpgrade.Shell

inductive Token where
  | word (parts : Word)
  | redirect (descriptor : Nat) (sign : String)
  | keyword (name : String)
  | sign (text : String)
  | newline
  | finish

/-- A here-document that has been announced and starts after the line. -/
structure Announced where
  number : Nat
  mark : List Char
  strips : Bool
  quoted : Bool

/-- What is left of a script, the line of it, a token that was read too early, and the
here-documents so far. -/
structure Input where
  rest : List Char
  line : Nat := 1
  pushed : Option Token := none
  announced : List Announced := []
  documents : Array Word := #[]

structure Fault where
  line : Nat
  message : String
  deriving Repr

abbrev Reader := StateT Input (Except Fault)

namespace Reader

def fail {α : Type} (message : String) : Reader α := do
  throw ⟨(← get).line, message⟩

/-- Drops joints of lines and counts them. -/
def dropJoints : Nat → List Char → Nat × List Char
  | line, '\\' :: '\n' :: rest => dropJoints (line + 1) rest
  | line, rest => (line, rest)

def nextRaw : Reader (Option Char) := do
  let s ← get
  match s.rest with
  | [] => return none
  | c :: rest =>
    set { s with rest := rest, line := if c == '\n' then s.line + 1 else s.line }
    return some c

/-- The next character, which stays where it is. -/
def peek : Reader (Option Char) := do
  let s ← get
  let (line, rest) := dropJoints s.line s.rest
  set { s with line := line, rest := rest }
  return rest.head?

def accept (c : Char) : Reader Bool := do
  if (← peek) == some c then
    let _ ← nextRaw
    return true
  else return false

/-- Takes characters as long as they pass a test; `fuel` bounds their number. -/
def takeWhile (p : Char → Bool) : Nat → List Char → Reader (List Char)
  | 0, taken => return taken.reverse
  | fuel + 1, taken => do
    match ← peek with
    | some c =>
      if p c then
        let _ ← nextRaw
        takeWhile p fuel (c :: taken)
      else return taken.reverse
    | none => return taken.reverse

def takeAll (p : Char → Bool) : Reader String := do
  return String.ofList (← takeWhile p ((← get).rest.length + 1) [])

end Reader

/-! How tokens are named. -/

def keywords : List String :=
  ["!", "case", "do", "done", "elif", "else", "esac", "fi", "for", "if", "in", "then", "until",
   "while", "\x7b", "\x7d"]

/-- Tokens that end a list in a compound command. -/
def Token.endsList : Token → Bool
  | .finish => true
  | .sign text => [")", ";;"].contains text
  | .keyword name => ["do", "done", "elif", "else", "esac", "fi", "then", "\x7d"].contains name
  | _ => false

def Token.describe : Token → String
  | .word _ => "word"
  | .redirect _ _ => "redirection"
  | .keyword name => "\"" ++ name ++ "\""
  | .sign text => "\"" ++ text ++ "\""
  | .newline => "newline"
  | .finish => "end of file"

def unexpected {α : Type} (t : Token) (wanted : Option String) : Reader α :=
  Reader.fail ("Syntax error: " ++ t.describe ++ " unexpected" ++
    match wanted with
    | some text => " (expecting " ++ text ++ ")"
    | none => "")

end SpecUpgrade.Shell
