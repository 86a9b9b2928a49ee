import SpecUpgrade.Text.Regex

/-!
Scripts that edit a stream of lines: what their instructions are and how they are written.
-/

namespace SpecUpgrade.Utility.StreamEdit

inductive Address where
  | line (number : Nat)
  | last
  | matching (pattern : Regex.Pattern)

inductive Selector where
  | all
  | one (a : Address)
  | range (first stop : Address)

/-- A part of what takes the place of a match: a text, or what a group matched. -/
inductive Piece where
  | text (cs : List Char)
  | group (number : Nat)

structure Substitution where
  pattern : Regex.Pattern
  pieces : List Piece
  number : Nat
  all : Bool
  prints : Bool

inductive Action where
  | delete
  | number
  | print
  | quit (status : Nat)
  | substitute (s : Substitution)

structure Instruction where
  selector : Selector
  negated : Bool
  action : Action

/-! Reading. -/

/-- What is left of a script and how many characters have been taken. -/
structure Reading where
  rest : List Char
  taken : Nat := 0

/-- What is wrong with a script and how many characters had been taken. -/
structure Fault where
  message : String
  taken : Nat

abbrev Reader := StateT Reading (Except Fault)

def refuse {α : Type} (message : String) : Reader α := do
  throw ⟨message, (← get).taken⟩

def quoted (name : String) : String := "\x60" ++ name ++ "\x27"

/-- Takes a character. At the end nothing is taken. -/
def next? : Reader (Option Char) := do
  match (← get).rest with
  | [] => return none
  | c :: rest =>
    modify fun s => ⟨rest, s.taken + 1⟩
    return some c

def peek? : Reader (Option Char) := do return (← get).rest.head?

def takeWhile (test : Char → Bool) : Reader (List Char) := do
  let found := (← get).rest.takeWhile test
  modify fun s => ⟨s.rest.drop found.length, s.taken + found.length⟩
  return found

def skip (test : Char → Bool) : Reader Unit := do
  let _ ← takeWhile test

def isBlankSign (c : Char) : Bool := c == ' ' || c == '\t'

def isSpaceSign (c : Char) : Bool := c == ' ' || (9 ≤ c.toNat && c.toNat ≤ 13)

def takeNumber : Reader Nat := do
  return ((String.ofList (← takeWhile Char.isDigit)).toNat?).getD 0

/-- The characters of brackets in a pattern, up to the one that closes them. -/
def takeBrackets : Nat → Bool → List Char → List Char → Option (List Char × List Char)
  | 0, _, _, _ => none
  | fuel + 1, first, done, rest =>
    match rest with
    | [] => none
    | '\n' :: _ => none
    | '[' :: k :: more =>
      if k == ':' || k == '.' || k == '=' then
        let inside := more.takeWhile (· != k)
        match more.drop inside.length with
        | _ :: ']' :: after =>
          takeBrackets fuel false (']' :: k :: inside.reverse ++ k :: '[' :: done) after
        | _ => takeBrackets fuel false ('[' :: done) (k :: more)
      else takeBrackets fuel false ('[' :: done) (k :: more)
    | ']' :: after =>
      if first then takeBrackets fuel false (']' :: done) after
      else some ((']' :: done).reverse, after)
    | '\\' :: 'n' :: after => takeBrackets fuel false ('\n' :: done) after
    | c :: after => takeBrackets fuel (first && c == '^') (c :: done) after

/-- Takes a text up to a sign. A backslash before the sign goes; in a pattern brackets may hold it. -/
def takeUpTo (sign : Char) (inPattern : Bool) : Nat → List Char → Reader (Option (List Char))
  | 0, _ => return none
  | fuel + 1, done => do
    match ← next? with
    | none => return none
    | some c =>
      if c == sign then return some done.reverse
      else if c == '\n' && inPattern then return none
      else if c == '\\' then
        match ← next? with
        | none => return none
        | some d =>
          if d == sign && !(d == '&' && !inPattern) then takeUpTo sign inPattern fuel (d :: done)
          else if d == 'n' && inPattern then takeUpTo sign inPattern fuel ('\n' :: done)
          else takeUpTo sign inPattern fuel (d :: c :: done)
      else if c == '[' && inPattern then
        let s ← get
        let (negated, rest) := match s.rest with
          | '^' :: rest => (['^'], rest)
          | rest => ([], rest)
        match takeBrackets (rest.length + 1) true [] rest with
        | some (inside, after) =>
          set (⟨after, s.taken + (s.rest.length - after.length)⟩ : Reading)
          takeUpTo sign inPattern fuel (inside.reverse ++ negated ++ c :: done)
        | none => takeUpTo sign inPattern fuel (c :: done)
      else takeUpTo sign inPattern fuel (c :: done)

/-- The sign that a letter after a backslash stands for. -/
def signOf? : Char → Option Char
  | 'a' => some '\x07'
  | 'f' => some '\x0c'
  | 'r' => some '\r'
  | 't' => some '\t'
  | 'v' => some '\x0b'
  | _ => none

/-- A pattern with its signs put in for what stands for them. -/
def withSigns : List Char → List Char
  | [] => []
  | '\\' :: d :: rest =>
    match signOf? d with
    | some c => c :: withSigns rest
    | none => '\\' :: d :: withSigns rest
  | c :: rest => c :: withSigns rest

def patternOf (x : Regex.Dialect) (cs : List Char) : Reader Regex.Pattern := do
  if cs.isEmpty then refuse "no previous regular expression"
  else
    match Regex.read x (String.ofList (withSigns cs)) with
    | .ok r => return r
    | .error message => refuse message

def piecesOf : List Char → List Piece
  | [] => []
  | '&' :: rest => .group 0 :: piecesOf rest
  | '\\' :: d :: rest =>
    (if d.isDigit then .group (d.toNat - '0'.toNat)
      else .text [if d == 'n' then '\n' else (signOf? d).getD d]) :: piecesOf rest
  | c :: rest => .text [c] :: piecesOf rest

def takeEnd : Reader Unit := do
  skip isBlankSign
  match ← peek? with
  | none => return
  | some '#' => return
  | some c =>
    let _ ← next?
    if c == '\n' || c == ';' then return else refuse "extra characters after command"

structure Options where
  number : Option Nat := none
  all : Bool := false
  prints : Bool := false
  folds : Bool := false

def takeOptions : Nat → Options → Reader Options
  | 0, o => return o
  | fuel + 1, o => do
    let command := quoted "s" ++ " command"
    match ← peek? with
    | none => return o
    | some '#' => return o
    | some c =>
      if c.isDigit then
        let before := (← get).taken
        let n ← takeNumber
        if o.number.isSome then throw ⟨"multiple number options to " ++ command, before + 1⟩
        else if n == 0 then refuse ("number option to " ++ command ++ " may not be zero")
        else takeOptions fuel { o with number := some n }
      else
        let _ ← next?
        match c with
        | '\n' => return o
        | ';' => return o
        | 'i' => takeOptions fuel { o with folds := true }
        | 'I' => takeOptions fuel { o with folds := true }
        | 'p' =>
          if o.prints then refuse ("multiple " ++ quoted "p" ++ " options to " ++ command)
          else takeOptions fuel { o with prints := true }
        | 'g' =>
          if o.all then refuse ("multiple " ++ quoted "g" ++ " options to " ++ command)
          else takeOptions fuel { o with all := true }
        | c =>
          if isSpaceSign c then takeOptions fuel o
          else refuse ("unknown option to " ++ quoted "s")

def highestGroup (pieces : List Piece) : Nat :=
  pieces.foldl (fun n p => match p with
    | .group m => max n m
    | .text _ => n) 0

def takeSubstitution (x : Regex.Dialect) : Reader Substitution := do
  let unfinished {α : Type} : Reader α := refuse ("unterminated " ++ quoted "s" ++ " command")
  match ← next? with
  | none => unfinished
  | some sign =>
    if sign == '\n' || sign == '\\' then unfinished
    else
      let size := (← get).rest.length + 1
      match ← takeUpTo sign true size [] with
      | none => unfinished
      | some pattern =>
        match ← takeUpTo sign false size [] with
        | none => unfinished
        | some text =>
          let pieces := piecesOf text
          let o ← takeOptions size {}
          let pattern ← patternOf { x with foldsCase := o.folds } pattern
          let highest := highestGroup pieces
          if pattern.groups < highest then
            refuse ("invalid reference \\" ++ Nat.repr highest ++ " on " ++ quoted "s" ++
              " command's RHS")
          else return ⟨pattern, pieces, o.number.getD 1, o.all, o.prints⟩

/-- Takes a pattern as an address, after the sign that opens it. -/
def takePattern (x : Regex.Dialect) (sign : Char) : Reader Address := do
  match ← takeUpTo sign true ((← get).rest.length + 1) [] with
  | none => refuse "unterminated address regex"
  | some cs =>
    let flags ← takeWhile (· == 'I')
    return .matching (← patternOf { x with foldsCase := !flags.isEmpty } cs)

def takeAddress (x : Regex.Dialect) : Reader (Option Address) := do
  match ← peek? with
  | none => return none
  | some c =>
    if c.isDigit then return some (.line (← takeNumber))
    else if c == '$' then
      let _ ← next?
      return some .last
    else if c == '/' then
      let _ ← next?
      return some (← takePattern x c)
    else if c == '\\' then
      let _ ← next?
      match ← next? with
      | none => refuse "unterminated address regex"
      | some sign => return some (← takePattern x sign)
    else return none

def takeSelector (x : Regex.Dialect) : Reader Selector := do
  match ← takeAddress x with
  | none => return .all
  | some (.line 0) =>
    let _ ← next?
    refuse "invalid usage of line address 0"
  | some a =>
    skip isBlankSign
    if (← peek?) == some ',' then
      let _ ← next?
      skip isBlankSign
      match ← takeAddress x with
      | some stop => return .range a stop
      | none =>
        let _ ← next?
        refuse ("unexpected " ++ quoted ",")
    else return .one a

def takeAction (x : Regex.Dialect) (selector : Selector) (c : Char) : Reader Action := do
  let plain (a : Action) : Reader Action := do
    takeEnd
    return a
  match c with
  | '=' => plain .number
  | 'd' => plain .delete
  | 'p' => plain .print
  | 's' => return .substitute (← takeSubstitution x)
  | 'q' =>
    match selector with
    | .range _ _ => refuse "command only uses one address"
    | _ =>
      skip isBlankSign
      let status ← takeNumber
      plain (.quit status)
  | c => refuse ("unknown command: " ++ quoted (String.singleton c))

def takeAll (x : Regex.Dialect) : Nat → List Instruction → Reader (List Instruction)
  | 0, done => return done.reverse
  | fuel + 1, done => do
    skip fun c => isSpaceSign c || c == ';'
    match ← peek? with
    | none => return done.reverse
    | some _ =>
      let selector ← takeSelector x
      skip isBlankSign
      let negated := (← peek?) == some '!'
      if negated then
        let _ ← next?
        skip isBlankSign
      match ← next? with
      | none => refuse "missing command"
      | some '\n' => refuse "missing command"
      | some ';' => refuse "missing command"
      | some '#' =>
        match selector with
        | .all =>
          skip (· != '\n')
          takeAll x fuel done
        | _ => refuse "comments don't accept any addresses"
      | some c => takeAll x fuel (⟨selector, negated, ← takeAction x selector c⟩ :: done)

def read (x : Regex.Dialect) (text : List Char) : Except Fault (List Instruction) :=
  ((takeAll x (text.length + 2) []).run ⟨text, 0⟩).map (·.1)

end SpecUpgrade.Utility.StreamEdit
