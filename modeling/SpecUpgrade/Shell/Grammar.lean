import SpecUpgrade.Shell.WordReader

/-!
Reads commands: simple ones, those joined to pipelines and lists, and the compound commands that
hold lists. A script is read line by line, as its lines are run before the next ones are read.
-/

namespace SpecUpgrade.Shell

/-! Tokens. -/

def skipBlanks : Nat → Reader Unit
  | 0 => return
  | fuel + 1 => do
    match ← Reader.peek with
    | some ' ' | some '\t' =>
      let _ ← Reader.nextRaw
      skipBlanks fuel
    | some '#' => modify fun s => { s with rest := s.rest.dropWhile (· != '\n') }
    | _ => return

/-- The sign of a redirection whose first character has been taken. -/
def readSign (first : Char) : Reader String := do
  if first == '>' then
    if ← Reader.accept '>' then return ">>"
    else if ← Reader.accept '|' then return ">|"
    else if ← Reader.accept '&' then return ">&"
    else return ">"
  else if ← Reader.accept '<' then
    if ← Reader.accept '-' then return "<<-" else return "<<"
  else if ← Reader.accept '&' then return "<&"
  else if ← Reader.accept '>' then return "<>"
  else return "<"

def readDoubled (c : Char) : Reader Token := do
  if ← Reader.accept c then return .sign (String.ofList [c, c])
  else return .sign (String.singleton c)

def scanToken (inner : Inner) : Reader Token := do
  skipBlanks ((← get).rest.length + 1)
  match ← Reader.peek with
  | none => return .finish
  | some c =>
    if c == '\n' then
      let _ ← Reader.nextRaw
      return .newline
    else if c == '&' || c == '|' || c == ';' then
      let _ ← Reader.nextRaw
      readDoubled c
    else if c == '(' || c == ')' then
      let _ ← Reader.nextRaw
      return .sign (String.singleton c)
    else if c == '<' || c == '>' then
      let _ ← Reader.nextRaw
      return .redirect (if c == '>' then 1 else 0) (← readSign c)
    else
      let parts ← readWord inner .bare
      match parts, ← Reader.peek with
      | [.char d false], some sign =>
        if d.isDigit && (sign == '<' || sign == '>') then
          let _ ← Reader.nextRaw
          return .redirect (d.toNat - '0'.toNat) (← readSign sign)
        else return .word parts
      | parts, _ => return .word parts

/-- A word is a keyword where one may stand. -/
def Token.asKeyword : Token → Token
  | .word parts =>
    match literal? parts with
    | some text => if keywords.contains text then .keyword text else .word parts
    | none => .word parts
  | t => t

/-- The next token. Where `lines` is true, line breaks are passed over and the here-documents after
them are read. -/
def readToken (inner : Inner) (keyword lines : Bool) : Nat → Reader Token
  | 0 => return .finish
  | fuel + 1 => do
    let s ← get
    let t ← match s.pushed with
      | some t =>
        set { s with pushed := none }
        pure t
      | none => scanToken inner
    match t with
    | .newline =>
      if lines then
        readDocuments inner
        readToken inner keyword lines fuel
      else return t
    | t => return if keyword then t.asKeyword else t

def push (t : Token) : Reader Unit := modify fun s => { s with pushed := some t }

def token (inner : Inner) (keyword lines : Bool) : Reader Token := do
  readToken inner keyword lines ((← get).rest.length + 2)

def expect (inner : Inner) (name : String) : Reader Unit := do
  match ← token inner true false with
  | .keyword found =>
    if found == name then return
    else unexpected (.keyword found) (some ("\"" ++ name ++ "\""))
  | t => unexpected t (some ("\"" ++ name ++ "\""))

/-! Simple commands. -/

def announce (mark : Word) (strips : Bool) : Reader Nat := do
  let s ← get
  let number := s.documents.size
  let a : Announced := ⟨number, (plainText mark).toList, strips, isQuoted mark⟩
  set { s with documents := s.documents.push [], announced := s.announced ++ [a] }
  return number

def readTarget (inner : Inner) (descriptor : Nat) (sign : String) : Reader Redirect := do
  if sign == "<<" || sign == "<<-" then
    skipBlanks ((← get).rest.length + 1)
    match ← Reader.peek with
    | some c =>
      if isMeta c then unexpected (← token inner false false) none
      else
        let mark ← readMark ((← get).rest.length + 2) false []
        return .document descriptor (← announce mark (sign == "<<-"))
    | none => unexpected .finish none
  else
    match ← token inner false false with
    | .word target =>
      match sign with
      | ">&" | "<&" => return .duplicate descriptor target
      | ">" => return .file descriptor .write false target
      | ">|" => return .file descriptor .write true target
      | ">>" => return .file descriptor .append false target
      | "<>" => return .file descriptor .update false target
      | _ => return .file descriptor .read false target
    | t => unexpected t none

def readRedirects (inner : Inner) : Nat → List Redirect → Reader (List Redirect)
  | 0, done => return done.reverse
  | fuel + 1, done => do
    match ← token inner true false with
    | .redirect descriptor sign =>
      readRedirects inner fuel ((← readTarget inner descriptor sign) :: done)
    | t =>
      push t
      return done.reverse

/-- The parts of a simple command, last first. -/
structure Parts where
  assignments : List Word := []
  words : List Word := []
  redirects : List Redirect := []

def Parts.command (p : Parts) (line : Nat) : Command :=
  .simple line p.assignments.reverse p.words.reverse p.redirects.reverse

/-- Names that no function may have: those of the built-in commands that a shell looks for first. -/
def specialNames : List String :=
  [".", ":", "break", "continue", "eval", "exec", "exit", "export", "readonly", "return", "set",
   "shift", "trap", "unset"]

/-- Reads the parts of a simple command; assignments stand before all words. The name of a function
ends them at the parenthesis after it. -/
def readSimple (inner : Inner) : Nat → Parts → Reader (Parts × Bool)
  | 0, p => return (p, false)
  | fuel + 1, p => do
    match ← token inner false false with
    | .word parts =>
      if p.words.isEmpty && (assignment? parts).isSome then
        readSimple inner fuel { p with assignments := parts :: p.assignments }
      else readSimple inner fuel { p with words := parts :: p.words }
    | .redirect descriptor sign =>
      let r ← readTarget inner descriptor sign
      readSimple inner fuel { p with redirects := r :: p.redirects }
    | .sign "(" =>
      if p.words.length == 1 && p.assignments.isEmpty && p.redirects.isEmpty then
        return (p, true)
      else
        push (.sign "(")
        return (p, false)
    | t =>
      push t
      return (p, false)

/-- Reads words up to the end of the line or a semicolon. -/
def readWords (inner : Inner) : Nat → List Word → Reader (List Word)
  | 0, done => return done.reverse
  | fuel + 1, done => do
    match ← token inner false false with
    | .word parts => readWords inner fuel (parts :: done)
    | .newline | .sign ";" => return done.reverse
    | t => unexpected t none

def allParameters : Word := [.parameter "@" .value false [] true]

/-- Reads the patterns of an arm of a choice up to the parenthesis after them. -/
def readPatterns (inner : Inner) : Nat → Token → List Word → Reader (List Word)
  | 0, _, done => return done.reverse
  | fuel + 1, t, done => do
    let pattern := match t with
      | .word parts => parts
      | .keyword name => name.toList.map fun c => Part.char c false
      | _ => []
    match ← token inner false false with
    | .sign "|" => readPatterns inner fuel (← token inner false false) (pattern :: done)
    | .sign ")" => return (pattern :: done).reverse
    | t => unexpected t (some "\")\"")

/-! Lists and compound commands. -/

/-- How a list ends: with the line, or with a word of the compound command that it is in, where it
may be empty or not. -/
inductive Extent where
  | line
  | body
  | arm
  deriving DecidableEq, Repr

def joinCommands : Option Command → Command → Command
  | none, c => c
  | some first, c => .sequence first c

mutual

/-- Reads pipelines up to the end of a list; `fuel` bounds the steps. There is none only at the end
of a text or on an empty line. -/
def readList (inner : Inner) : Nat → Extent → Option Command → Reader (Option Command)
  | 0, _, _ => unexpected .finish none
  | fuel + 1, extent, done => do
    let t ← token inner true (extent ≠ .line)
    match t with
    | .newline =>
      readDocuments inner
      return done
    | .finish =>
      readDocuments inner
      push .finish
      return done
    | t =>
      push t
      if t.endsList && extent ≠ .line && (extent = .arm || done.isSome) then return done
      else
        let c ← readAndOr inner fuel
        let t ← token inner false false
        let c := match t with
          | .sign "&" => .background c
          | _ => c
        let done := joinCommands done c
        match t with
        | .finish =>
          readDocuments inner
          push .finish
          return some done
        | .newline =>
          push .newline
          readList inner fuel extent (some done)
        | .sign "&" | .sign ";" => readList inner fuel extent (some done)
        | t =>
          if extent = .line then unexpected t none
          else
            push t
            return some done

/-- Reads pipelines of which the next is run by how the one before ends. -/
def readAndOr (inner : Inner) : Nat → Reader Command
  | 0 => unexpected .finish none
  | fuel + 1 => do
    let first ← readPipeline inner fuel
    readAndOrRest inner fuel first

def readAndOrRest (inner : Inner) : Nat → Command → Reader Command
  | 0, _ => unexpected .finish none
  | fuel + 1, first => do
    match ← token inner false false with
    | .sign "&&" =>
      push (← token inner true true)
      let second ← readPipeline inner fuel
      readAndOrRest inner fuel (.onSuccess first second)
    | .sign "||" =>
      push (← token inner true true)
      let second ← readPipeline inner fuel
      readAndOrRest inner fuel (.onFailure first second)
    | t =>
      push t
      return first

def readPipeline (inner : Inner) : Nat → Reader Command
  | 0 => unexpected .finish none
  | fuel + 1 => do
    let t ← token inner true false
    match t with
    | .keyword "!" =>
      push (← token inner true false)
      return .inverted (← readPiped inner fuel [])
    | t =>
      push t
      readPiped inner fuel []

def readPiped (inner : Inner) : Nat → List Command → Reader Command
  | 0, _ => unexpected .finish none
  | fuel + 1, done => do
    let c ← readCommand inner fuel
    match ← token inner false false with
    | .sign "|" =>
      push (← token inner true true)
      readPiped inner fuel (c :: done)
    | t =>
      push t
      return if done.isEmpty then c else .pipeline (c :: done).reverse

/-- Reads a list that ends with a keyword, and the redirections after it. -/
def readBody (inner : Inner) : Nat → Reader Command
  | 0 => unexpected .finish none
  | fuel + 1 => do
    return (← readList inner fuel .body none).getD .nothing

def readCommand (inner : Inner) : Nat → Reader Command
  | 0 => unexpected .finish none
  | fuel + 1 => do
    let line := (← get).line
    match ← token inner true false with
    | .keyword "if" => finish line (← readBranch inner fuel) (some "fi") fuel
    | .keyword "while" => finish line (← readLoop inner fuel false) (some "done") fuel
    | .keyword "until" => finish line (← readLoop inner fuel true) (some "done") fuel
    | .keyword "for" => finish line (← readEach inner fuel line) (some "done") fuel
    | .keyword "case" => finish line (← readChoice inner fuel line) none fuel
    | .keyword "\x7b" => finish line (← readBody inner fuel) (some "\x7d") fuel
    | .sign "(" =>
      let body ← readBody inner fuel
      match ← token inner true false with
      | .sign ")" => return .subshell line body (← readRedirects inner fuel [])
      | t => unexpected t (some "\")\"")
    | .word parts =>
      push (.word parts)
      let (p, isFunction) ← readSimple inner ((← get).rest.length + 4) {}
      if isFunction then
        let name ← functionName p
        let line := (← get).line
        push (← token inner true true)
        return .define line name (← readCommand inner fuel)
      else return p.command line
    | .redirect descriptor sign =>
      push (.redirect descriptor sign)
      return (← readSimple inner ((← get).rest.length + 4) {}).1.command line
    | t => unexpected t none
where
  finish (line : Nat) (c : Command) (word : Option String) (fuel : Nat) : Reader Command := do
    match word with
    | some name => expect inner name
    | none => pure ()
    match ← readRedirects inner fuel [] with
    | [] => return c
    | redirects => return .redirected line c redirects
  functionName (p : Parts) : Reader String := do
    match ← token inner false false with
    | .sign ")" =>
      let name := (p.words.head?.bind literal?).getD ""
      if !isName name || specialNames.contains name then
        Reader.fail "Syntax error: Bad function name"
      else return name
    | t => unexpected t (some "\")\"")

def readBranch (inner : Inner) : Nat → Reader Command
  | 0 => unexpected .finish none
  | fuel + 1 => do
    let condition ← readBody inner fuel
    expect inner "then"
    let body ← readBody inner fuel
    match ← token inner true false with
    | .keyword "elif" => return .branch condition body (← readBranch inner fuel)
    | .keyword "else" => return .branch condition body (← readBody inner fuel)
    | t =>
      push t
      return .branch condition body .nothing

def readLoop (inner : Inner) : Nat → Bool → Reader Command
  | 0, _ => unexpected .finish none
  | fuel + 1, awaited => do
    let condition ← readBody inner fuel
    expect inner "do"
    return .loop awaited condition (← readBody inner fuel)

def readEach (inner : Inner) : Nat → Nat → Reader Command
  | 0, _ => unexpected .finish none
  | fuel + 1, line => do
    match ← token inner false false with
    | .word parts =>
      let name := (literal? parts).getD ""
      if !isName name then Reader.fail "Syntax error: Bad for loop variable"
      else
        let words ← match ← token inner true true with
          | .keyword "in" => readWords inner ((← get).rest.length + 2) []
          | .sign ";" => pure [allParameters]
          | t => do
            push t
            pure [allParameters]
        match ← token inner true true with
        | .keyword "do" => return .each line name words (← readBody inner fuel)
        | t => unexpected t (some "\"do\"")
    | _ => Reader.fail "Syntax error: Bad for loop variable"

def readChoice (inner : Inner) : Nat → Nat → Reader Command
  | 0, _ => unexpected .finish none
  | fuel + 1, line => do
    match ← token inner false false with
    | .word parts =>
      match ← token inner true true with
      | .keyword "in" => return .choice line parts (← readArms inner fuel [])
      | t => unexpected t (some "\"in\"")
    | t => unexpected t (some "word")

def readArms (inner : Inner) : Nat → List (List Word × Command) → Reader (List (List Word × Command))
  | 0, _ => unexpected .finish none
  | fuel + 1, done => do
    match ← token inner true true with
    | .keyword "esac" => return done.reverse
    | t =>
      let t ← match t with
        | .sign "(" => token inner false false
        | t => pure t
      let patterns ← readPatterns inner ((← get).rest.length + 2) t []
      let body := (← readList inner fuel .arm none).getD .nothing
      let done := (patterns, body) :: done
      match ← token inner true true with
      | .keyword "esac" => return done.reverse
      | .sign ";;" => readArms inner fuel done
      | t => unexpected t (some "\";;\"")

end

/-- Reads the commands of a substitution; `fuel` bounds how deep substitutions are nested. -/
def readInner : Nat → Inner
  | 0, _ => unexpected .finish none
  | fuel + 1, closed => do
    let c ← readList (readInner fuel) (8 * (← get).rest.length + 16) .arm none
    if closed then
      match ← token (readInner fuel) true false with
      | .sign ")" => return c.getD .nothing
      | t => unexpected t (some "\")\"")
    else return c.getD .nothing

/-- The commands of the next line of a script, with all lines that belong to them. -/
def readLine (s : Input) : Except Fault (Option Command × Input) :=
  readList (readInner (s.rest.length + 1)) (8 * s.rest.length + 16) .line none s

def Input.isFinished (s : Input) : Bool :=
  match s.pushed with
  | some .finish => true
  | _ => false

end SpecUpgrade.Shell
