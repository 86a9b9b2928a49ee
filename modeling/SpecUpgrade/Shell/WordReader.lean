import SpecUpgrade.Shell.Input

/-!
Reads words: plain characters, quotes, parameters, the output of commands and sums.
-/

namespace SpecUpgrade.Shell

/-- Where a part of a word stands: outside of quotes, between double quotes, in the braces of a
parameter, in a sum at a depth of parentheses, or in a here-document. -/
inductive Setting where
  | bare
  | quoted
  | brace (inside : Bool)
  | sum (depth : Nat)
  | document
  deriving DecidableEq, Repr

/-- Parts that stand here count as quoted. -/
def Setting.quotes : Setting → Bool
  | bare => false
  | quoted => true
  | brace inside => inside
  | sum _ => true
  | document => true

/-- Reads the commands of a substitution, up to a closing parenthesis if `closed` and else up to the
end of the text. -/
abbrev Inner := (closed : Bool) → Reader Command

def isMeta (c : Char) : Bool := " \t\n;&|<>()".toList.contains c

def unterminated : String := "Syntax error: Unterminated quoted string"

def readSingle : Nat → List Part → Reader (List Part)
  | 0, _ => Reader.fail unterminated
  | fuel + 1, done => do
    match ← Reader.nextRaw with
    | none => Reader.fail unterminated
    | some c => if c == '\x27' then return done else readSingle fuel (.char c true :: done)

/-- Characters that a backslash takes their meaning from in a setting with quotes. -/
def isEscapable (setting : Setting) (c : Char) : Bool :=
  c == '\\' || c == '\x60' || c == '$' || (c == '"' && setting ≠ .document) ||
    (c == '\x7d' && setting = .brace true)

/-- What a backslash stands for with what comes after it, last part first. -/
def readEscape (setting : Setting) : Reader (List Part) := do
  match ← Reader.nextRaw with
  | none => return [.char '\\' true]
  | some c =>
    if !setting.quotes || isEscapable setting c then return [.char c true]
    else return [.char c true, .char '\\' true]

/-- The text between back quotes, without the backslashes that belong to them. -/
def readBackquoted (quoted : Bool) : Nat → List Char → Reader (List Char)
  | 0, _ => Reader.fail "Syntax error: EOF in backquote substitution"
  | fuel + 1, done => do
    match ← Reader.nextRaw with
    | none => Reader.fail "Syntax error: EOF in backquote substitution"
    | some '\x60' => return done.reverse
    | some '\\' =>
      match ← Reader.nextRaw with
      | none => readBackquoted quoted fuel ('\\' :: done)
      | some '\n' => readBackquoted quoted fuel done
      | some c =>
        if c == '\\' || c == '\x60' || c == '$' || (quoted && c == '"') then
          readBackquoted quoted fuel (c :: done)
        else readBackquoted quoted fuel (c :: '\\' :: done)
    | some c => readBackquoted quoted fuel (c :: done)

/-- Reads another text and then goes on where the first was left. -/
def within {α : Type} (text : List Char) (r : Reader α) : Reader α := do
  let s ← get
  set { s with rest := text, pushed := none, announced := [] }
  let a ← r
  modify fun t => { t with
    rest := s.rest, line := s.line, pushed := s.pushed, announced := s.announced }
  return a

/-- Reads the commands of a substitution in parentheses; a token that was read before stays. -/
def substituted (inner : Inner) : Reader Command := do
  let s ← get
  set { s with pushed := none, announced := [] }
  let c ← inner true
  modify fun t => { t with pushed := s.pushed, announced := s.announced }
  return c

/-- The operation that is written after the name of a parameter, and whether a word follows. -/
def readOperation : Reader (Operation × Bool × Bool) := do
  let colon ← Reader.accept ':'
  match ← Reader.peek with
  | some '-' => done .orElse colon
  | some '+' => done .instead colon
  | some '?' => done .require colon
  | some '=' => done .assign colon
  | some '\x7d' =>
    if colon then return (.value, true, true)
    else
      let _ ← Reader.nextRaw
      return (.value, false, false)
  | some c =>
    if colon then return (.unknown, false, true)
    else if c == '%' then
      let _ ← Reader.nextRaw
      return (.cutBack (← Reader.accept '%'), false, true)
    else if c == '#' then
      let _ ← Reader.nextRaw
      return (.cutFront (← Reader.accept '#'), false, true)
    else return (.unknown, false, true)
  | none => return (.unknown, false, true)
where
  done (operation : Operation) (colon : Bool) : Reader (Operation × Bool × Bool) := do
    let _ ← Reader.nextRaw
    return (operation, colon, true)

/-- The name of a parameter in braces; none stands for one that is no name. After a number sign it
may be the length of a parameter that is asked for. -/
def readBracedName : Reader (Option String × Bool) := do
  match ← Reader.peek with
  | none => return (none, false)
  | some c =>
    if isNameStart c then return (some (← Reader.takeAll isNameChar), false)
    else if c.isDigit then return (some (← Reader.takeAll Char.isDigit), false)
    else if c == '\x7d' then return (none, false)
    else
      let _ ← Reader.nextRaw
      if c != '#' then return (if isSpecial c then some (String.singleton c) else none, false)
      else
        match ← Reader.peek with
        | none => return (some "#", false)
        | some d =>
          if isNameStart d then return (some (← Reader.takeAll isNameChar), true)
          else if d.isDigit then return (some (← Reader.takeAll Char.isDigit), true)
          else
            match (← get).rest with
            | _ :: '\x7d' :: _ =>
              if d == '\x7d' || !isSpecial d then return (some "#", false)
              else
                let _ ← Reader.nextRaw
                return (some (String.singleton d), true)
            | _ => return (some "#", false)

/-- What stands between double quotes, last part first, with the mark of the quotes. All parameters
by themselves have none: they are as many fields as there are parameters. -/
def markQuoted (parts : List Part) : List Part :=
  match parts with
  | [.parameter "@" .value _ _ _] => parts
  | parts => parts.reverse ++ [.mark]

/-- Patterns are read as outside of quotes, even between them. -/
def Operation.isPattern : Operation → Bool
  | cutFront _ => true
  | cutBack _ => true
  | _ => false

mutual

/-- Reads parts up to where their setting ends; `fuel` bounds the steps. -/
def readParts (inner : Inner) : Nat → Setting → List Part → Reader Word
  | 0, _, _ => Reader.fail unterminated
  | fuel + 1, setting, done => do
    match ← readPart inner fuel setting with
    | none => return done.reverse
    | some (parts, setting) => readParts inner fuel setting (parts ++ done)

/-- Reads what one character opens, last part first, and returns the setting after it; none at the
end of the setting. -/
def readPart (inner : Inner) :
    Nat → Setting → Reader (Option (List Part × Setting))
  | 0, _ => Reader.fail unterminated
  | fuel + 1, setting => do
    match ← Reader.peek with
    | none =>
      match setting with
      | .bare => return none
      | .document => return none
      | .quoted => Reader.fail unterminated
      | .brace _ => Reader.fail "Syntax error: Missing '\x7d'"
      | .sum _ => Reader.fail "Syntax error: Missing '))'"
    | some c =>
      if setting = .bare && isMeta c then return none
      else
        let _ ← Reader.nextRaw
        if c == '$' then return some ([← readDollar inner fuel setting.quotes], setting)
        else if c == '\x60' then
          let text ← readBackquoted setting.quotes ((← get).rest.length + 1) []
          let body ← within text (inner false)
          return some ([.output body setting.quotes], setting)
        else if c == '\\' then return some (← readEscape setting, setting)
        else
          match setting, c with
          | .quoted, '"' => return none
          | .brace _, '\x7d' => return none
          | .bare, '"' | .brace _, '"' =>
            return some (markQuoted (← readParts inner fuel .quoted []), setting)
          | .bare, '\x27' | .brace false, '\x27' =>
            return some (← readSingle ((← get).rest.length + 1) [.mark], setting)
          | .sum depth, '(' => return some ([.char c true], .sum (depth + 1))
          | .sum 0, ')' =>
            if ← Reader.accept ')' then return none else return some ([.char c true], setting)
          | .sum (depth + 1), ')' => return some ([.char c true], .sum depth)
          | setting, c => return some ([.char c setting.quotes], setting)

def readDollar (inner : Inner) : Nat → Bool → Reader Part
  | 0, _ => Reader.fail unterminated
  | fuel + 1, quoted => do
    match ← Reader.peek with
    | none => return .char '$' quoted
    | some '(' =>
      let _ ← Reader.nextRaw
      if ← Reader.accept '(' then return .sum (← readParts inner fuel (.sum 0) []) quoted
      else return .output (← substituted inner) quoted
    | some '\x7b' =>
      let _ ← Reader.nextRaw
      readBraced inner fuel quoted
    | some c =>
      if isNameStart c then
        return .parameter (← Reader.takeAll isNameChar) .value false [] quoted
      else if isSpecial c then
        let _ ← Reader.nextRaw
        return .parameter (String.singleton c) .value false [] quoted
      else return .char '$' quoted

def readBraced (inner : Inner) : Nat → Bool → Reader Part
  | 0, _ => Reader.fail unterminated
  | fuel + 1, quoted => do
    let (name?, measured) ← readBracedName
    let (operation, orNull, hasWord) ←
      match name?, measured with
      | none, _ => pure (Operation.unknown, false, true)
      | some _, true =>
        if ← Reader.accept '\x7d' then pure (Operation.length, false, false)
        else pure (Operation.unknown, false, true)
      | some _, false => readOperation
    let setting := Setting.brace (quoted && !operation.isPattern)
    let word ← if hasWord then readParts inner fuel setting [] else pure []
    return .parameter (name?.getD "") operation orNull word quoted

end

def readWord (inner : Inner) (setting : Setting) : Reader Word := do
  readParts inner (3 * (← get).rest.length + 8) setting []

/-- Reads the word that ends a here-document. Nothing is expanded in it. -/
def readMark : Nat → Bool → List Part → Reader Word
  | 0, _, done => return done.reverse
  | fuel + 1, quoted, done => do
    match ← Reader.peek with
    | none => if quoted then Reader.fail unterminated else return done.reverse
    | some c =>
      if !quoted && isMeta c then return done.reverse
      else
        let _ ← Reader.nextRaw
        if c == '"' then readMark fuel (!quoted) (.mark :: done)
        else if c == '\\' then
          let parts ← readEscape (if quoted then .quoted else .bare)
          readMark fuel quoted (parts ++ done)
        else if c == '\x27' && !quoted then
          let done ← readSingle ((← get).rest.length + 1) (.mark :: done)
          readMark fuel quoted done
        else readMark fuel quoted (.char c quoted :: done)

/-! Here-documents. -/

def firstLine (cs : List Char) : List Char × List Char :=
  let line := cs.takeWhile (· != '\n')
  (line, (cs.drop line.length).drop 1)

/-- The end of a line is a joint: an odd number of backslashes. -/
def isJoined (line : List Char) : Bool :=
  (line.reverse.takeWhile (· == '\\')).length % 2 == 1

/-- The lines of a here-document up to its mark, last first; `joined` is true after a joint. -/
def readLines (a : Announced) : Nat → Bool → List (List Char) → Reader (List (List Char))
  | 0, _, done => return done
  | fuel + 1, joined, done => do
    let s ← get
    if s.rest.isEmpty then return done
    else
      let (line, rest) := firstLine s.rest
      let complete := line.length < s.rest.length
      let line := if a.strips && !joined then line.dropWhile (· == '\t') else line
      set { s with rest := rest, line := s.line + 1 }
      if !joined && line == a.mark then return done
      else
        let whole := if complete then line ++ ['\n'] else line
        readLines a fuel (!a.quoted && isJoined line) (whole :: done)

def readDocument (inner : Inner) (a : Announced) : Reader Unit := do
  let start := (← get).line
  let text := (← readLines a ((← get).rest.length + 1) false []).reverse.flatten
  let body ← if a.quoted then pure (text.map fun c => Part.char c true)
    else do
      let after := (← get).line
      modify fun s => { s with line := start }
      let body ← within text (readWord inner .document)
      modify fun s => { s with line := after }
      pure body
  modify fun s => { s with documents := s.documents.setIfInBounds a.number body }

def readDocuments (inner : Inner) : Reader Unit := do
  let announced := (← get).announced
  modify fun s => { s with announced := [] }
  for a in announced do
    readDocument inner a

end SpecUpgrade.Shell
