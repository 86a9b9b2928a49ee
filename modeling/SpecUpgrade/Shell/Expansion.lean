import SpecUpgrade.Shell.Arithmetic
import SpecUpgrade.Shell.Field
import SpecUpgrade.Shell.Run

/-!
Words with their parameters, sums and outputs put in. What runs the commands of an output is given
by who asks for the expansion.
-/

namespace SpecUpgrade.Shell

/-- Runs the commands of an output and returns what they print. -/
abbrev Capture := Command → Run String

namespace Run

/-- What stands for the number of the last job, if there is one. -/
def specialValue? (p : Process) : String → Option (Option String)
  | "#" => some (some (Nat.repr p.parameters.length))
  | "?" => some (some (Nat.repr p.status))
  | "$" => some (some (Nat.repr p.leader))
  | "!" => some (p.lastJob.map Nat.repr)
  | "-" => some (some (String.ofList p.options))
  | "0" => some (some p.name)
  | _ => none

/-- The value of a parameter that has one text. -/
def parameter? (name : String) : Run (Option String) := do
  let p ← process
  match specialValue? p name with
  | some value => return value
  | none =>
    match name.toNat? with
    | some n => return if n = 0 then some p.name else p.parameters[n - 1]?
    | none => valueOf? name

def separators? : Run (Option String) := valueOf? "IFS"

/-! Sums. -/

def sumValue (name : String) : Run Int64 := do
  match ← valueOf? name with
  | none => return 0
  | some "" => return 0
  | some text =>
    match Arithmetic.numberOf? text with
    | some n => return Int64.ofInt n
    | none => fail ("Illegal number: " ++ text)

def evalSum (text : String) : Run String := do
  let wrong {α : Type} (reason : String) : Run α :=
    fail ("arithmetic expression: " ++ reason ++ ": \"" ++ text ++ "\"")
  match Arithmetic.read text with
  | .error reason => wrong reason
  | .ok e =>
    let store (name : String) (n : Int64) : Run Unit := setVariable name (toString n.toInt)
    return toString (← Arithmetic.eval sumValue store (wrong "division by zero") e).toInt

/-! Home directories. -/

/-- The home directory of a user; no name stands for who runs the shell. -/
def home? (user : String) : Run (Option String) := do
  if user == "" then valueOf? "HOME"
  else if user == "root" then return some "/root"
  else return none

/-- The part of a word that a tilde starts, up to a slash or, in an assignment, a colon. -/
def tildeName (assigned : Bool) (word : Word) : Option (String × Word) :=
  let ends (p : Part) : Bool := match p with
    | .char '/' false => true
    | .char ':' false => assigned
    | _ => false
  let name := word.takeWhile fun p => !ends p
  (literal? name).map (·, word.drop name.length)

/-- Puts home directories in for tildes at the start of a word and, in an assignment, after each
colon. -/
def expandTilde (assigned : Bool) : Nat → Bool → Word → List Part → Run Word
  | 0, _, word, done => return done.reverse ++ word
  | _ + 1, _, [], done => return done.reverse
  | fuel + 1, start, p :: rest, done => do
    match p with
    | .char '~' false =>
      match if start then tildeName assigned rest else none with
      | some (user, after) =>
        match ← home? user with
        | some path =>
          expandTilde assigned fuel false after ((path.toList.map (Part.char · true)).reverse ++ done)
        | none => expandTilde assigned fuel false rest (p :: done)
      | none => expandTilde assigned fuel false rest (p :: done)
    | .char ':' false => expandTilde assigned fuel assigned rest (p :: done)
    | p => expandTilde assigned fuel false rest (p :: done)

def tilded (assigned : Bool) (word : Word) : Run Word :=
  expandTilde assigned (word.length + 1) true word []

/-! Parameters. -/

def allPieces (quoted : Bool) (parameters : List String) : List Piece :=
  let each (p : String) : List Piece :=
    if quoted then .mark :: piecesOf true p else piecesOf false p
  ((parameters.map each).intersperse [.gap]).flatten

def withoutBreaks (text : String) : String :=
  String.ofList ((text.toList.reverse.dropWhile (· == '\n')).reverse)

def requireMessage (text : String) (orNull : Bool) : String :=
  if text != "" then text
  else if orNull then "parameter not set or null"
  else "parameter not set"

mutual

/-- The pieces of a word. With `splits`, what is not quoted divides fields even if it is written
there. -/
def expandParts (capture : Capture) : Nat → Bool → Word → Run (List Piece)
  | 0, _, _ => return []
  | fuel + 1, splits, word => do
    let mut done : List (List Piece) := []
    for p in word do
      done := (← expandPart capture fuel splits p) :: done
    return done.reverse.flatten

def expandPart (capture : Capture) : Nat → Bool → Part → Run (List Piece)
  | 0, _, _ => return []
  | fuel + 1, splits, part => do
    match part with
    | .char c quoted => return [.char c quoted (splits && !quoted)]
    | .mark => return [.mark]
    | .output body quoted => return piecesOf quoted (withoutBreaks (← capture body))
    | .sum word quoted =>
      let text := Pattern.text (joined " " (← expandParts capture fuel false word))
      return piecesOf quoted (← evalSum text)
    | .parameter name operation orNull word quoted =>
      if operation = .unknown then fail "Bad substitution"
      else
        let p ← process
        let separator := joiner (← separators?)
        let isAll := name == "@" || name == "*"
        let value ← if isAll then pure (some (String.intercalate separator p.parameters))
          else parameter? name
        let shown : List Piece :=
          if name == "@" || (name == "*" && !quoted) then allPieces quoted p.parameters
          else piecesOf quoted (value.getD "")
        let lacks := value.isNone || (orNull && value == some "")
        let wordPieces : Run (List Piece) := do
          expandParts capture fuel (!quoted) (← if quoted then pure word else tilded false word)
        let wordText : Run String := do
          return Pattern.text (joined separator (← expandParts capture fuel false
            (← if quoted then pure word else tilded false word)))
        match operation with
        | .value =>
          if value.isNone && (← hasOption 'u') then fail (name ++ ": parameter not set")
          else return shown
        | .length =>
          if value.isNone && (← hasOption 'u') then fail (name ++ ": parameter not set")
          else return piecesOf quoted (Nat.repr (value.getD "").length)
        | .orElse => if lacks then wordPieces else return shown
        | .instead => if lacks then return [] else wordPieces
        | .assign =>
          if !lacks then return shown
          else if !isName name then fail (name ++ ": bad variable name")
          else
            let text ← wordText
            setVariable name text
            return piecesOf quoted text
        | .require =>
          if !lacks then return shown
          else fail (name ++ ": " ++ requireMessage (← wordText) orNull)
        | .cutFront longest =>
          if value.isNone && (← hasOption 'u') then fail (name ++ ": parameter not set")
          else
            let pattern := joined separator (← expandParts capture fuel false (← tilded false word))
            return piecesOf quoted (pattern.cutFront longest (value.getD ""))
        | .cutBack longest =>
          if value.isNone && (← hasOption 'u') then fail (name ++ ": parameter not set")
          else
            let pattern := joined separator (← expandParts capture fuel false (← tilded false word))
            return piecesOf quoted (pattern.cutBack longest (value.getD ""))
        | .unknown => return []

end

def maxNesting : Nat := 1000

/-- A word as one pattern. -/
def expandPattern (capture : Capture) (word : Word) : Run Pattern := do
  let pieces ← expandParts capture maxNesting false (← tilded false word)
  return joined (joiner (← separators?)) pieces

def expandText (capture : Capture) (word : Word) : Run String := do
  return (← expandPattern capture word).text

def expandValue (capture : Capture) (word : Word) : Run String := do
  let pieces ← expandParts capture maxNesting false (← tilded true word)
  return (joined (joiner (← separators?)) pieces).text

def expandDocument (capture : Capture) (word : Word) : Run String := do
  return (joined (joiner (← separators?)) (← expandParts capture maxNesting false word)).text

/-- The fields of a word, which may still be patterns for files. -/
def expandPatterns (capture : Capture) (word : Word) : Run (List Pattern) := do
  let pieces ← expandParts capture maxNesting false (← tilded false word)
  return fields ((← separators?).getD defaultSeparators) pieces

end Run
end SpecUpgrade.Shell
