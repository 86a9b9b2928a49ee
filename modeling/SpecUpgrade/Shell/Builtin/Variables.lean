import SpecUpgrade.Shell.Builtin.Output

/-!
Built-in commands for variables, parameters and the options of the shell.
-/

namespace SpecUpgrade.Shell.Builtin

open Run

def listVariables (first : String) (p : Variable → Bool) : Run Nat := do
  let lines := (← process).bindings.filterMap fun (name, v) =>
    if p v then
      some (first ++ name ++ (v.value.map fun value => "=" ++ quoted value).getD "" ++ "\n")
    else none
  say (String.join lines).toList

def markVariables (mark : Variable → Variable) (arguments : List String) : Run Unit := do
  for text in arguments do
    let (name, value) := splitAssignment text
    checkName name
    match value with
    | some value => setVariable name value
    | none => pure ()
    changeVariable name mark

def exportNames (arguments : List String) : Run Nat := do
  let (letters, arguments) ← options "p" arguments
  if arguments.isEmpty || !letters.isEmpty then listVariables "export " (·.exported)
  else
    markVariables (fun v => { v with exported := true }) arguments
    return 0

def fixNames (arguments : List String) : Run Nat := do
  let (letters, arguments) ← options "p" arguments
  if arguments.isEmpty || !letters.isEmpty then listVariables "readonly " (·.fixed)
  else
    markVariables (fun v => { v with fixed := true }) arguments
    return 0

def unset (arguments : List String) : Run Nat := do
  let (letters, arguments) ← options "vf" arguments
  let functions := (letters.getLast?.map (·.1)) == some 'f'
  for name in arguments do
    if functions then
      updateProcess fun p => { p with functions := p.functions.filter (·.1 != name) }
    else
      checkName name
      unsetVariable name
  return 0

/-- Makes variables that are had back when the function ends. -/
def makeLocal (arguments : List String) : Run Nat := do
  if (← process).calls == 0 then fail "not in a function"
  for text in arguments do
    if text == "-" then pure ()
    else
      let (name, value) := splitAssignment text
      checkName name
      keepVariable name
      match value with
      | some value => setVariable name value
      | none => pure ()
  return 0

def shift (arguments : List String) : Run Nat := do
  let n ← match arguments with
    | [] => pure 1
    | text :: _ => number text
  let p ← process
  if p.parameters.length < n then fail "can't shift that many"
  else
    updateProcess fun p => { p with parameters := p.parameters.drop n }
    return 0

/-! Options of the shell. -/

def optionTable : List (String × Option Char) :=
  [("errexit", some 'e'), ("noglob", some 'f'), ("ignoreeof", some 'I'), ("interactive", some 'i'),
   ("monitor", some 'm'), ("noexec", some 'n'), ("stdin", some 's'), ("xtrace", some 'x'),
   ("verbose", some 'v'), ("vi", some 'V'), ("emacs", some 'E'), ("noclobber", some 'C'),
   ("allexport", some 'a'), ("notify", some 'b'), ("nounset", some 'u'),
   ("privileged", some 'p'), ("nolog", none), ("debug", none)]

/-- The letters of options, in the order in which those that are set are shown. -/
def optionLetters : List Char := (optionTable.filterMap (·.2)).reverse

def setOption (on : Bool) (letter : Char) : Run Unit := do
  if !optionLetters.contains letter then fail ("Illegal option -" ++ String.singleton letter)
  else
    updateProcess fun p => { p with
      options := optionLetters.filter fun c => if c == letter then on else p.options.contains c }

def setNamed (on : Bool) (name : String) : Run Unit := do
  match optionTable.find? (·.1 == name) with
  | some (_, some letter) => setOption on letter
  | some (_, none) => return
  | none => fail ("Illegal option -o " ++ name)

/-- Sets the options of one argument and returns the arguments after it. The letter of a command
counts only in the arguments that a shell is called with; it is told whether there was one. -/
def setLetters (calling on : Bool) : List Char → List String → Bool → Run (List String × Bool)
  | [], rest, command => return (rest, command)
  | c :: letters, rest, command => do
    if c == 'c' && calling then setLetters calling on letters rest true
    else if c == 'l' && calling then setLetters calling on letters rest command
    else if c == 'o' then
      match rest with
      | name :: after =>
        setNamed on name
        setLetters calling on letters after command
      | [] => setLetters calling on letters [] command
    else
      setOption on c
      setLetters calling on letters rest command

/-- Sets the options in arguments, and returns what comes after them, whether the parameters are to
be set even if there are none, and whether a command was asked for. -/
def readOptions (calling : Bool) : Nat → List String → Bool → Run (List String × Bool × Bool)
  | 0, rest, command => return (rest, false, command)
  | _ + 1, [], command => return ([], false, command)
  | fuel + 1, word :: rest, command => do
    match word.toList with
    | ['-'] =>
      if !calling then
        setOption false 'x'
        setOption false 'v'
      return (rest, false, command)
    | ['-', '-'] => return (rest, true, command)
    | sign :: letters =>
      if sign == '-' || sign == '+' then
        let (rest, command) ← setLetters calling (sign == '-') letters rest command
        readOptions calling fuel rest command
      else return (word :: rest, false, command)
    | [] => return (word :: rest, false, command)

def set (arguments : List String) : Run Nat := do
  if arguments.isEmpty then listVariables "" (·.value.isSome)
  else
    let (rest, reset, _) ← readOptions false (arguments.length + 1) arguments false
    if reset || !rest.isEmpty then
      updateProcess fun p => { p with parameters := rest }
    return 0

/-! Reading. -/

/-- The characters of a line, each with whether it stands for itself. A backslash takes the meaning
from what comes after it, and before a line break it joins the next line, of which none is there. -/
def readEscapes : List Char → List (Char × Bool) × Bool
  | ['\\', '\n'] => ([], true)
  | '\\' :: c :: rest =>
    let (cs, joined) := readEscapes rest
    ((c, true) :: cs, joined)
  | ['\\'] => ([], false)
  | c :: rest =>
    let (cs, joined) := readEscapes rest
    ((c, false) :: cs, joined)
  | [] => ([], false)

/-- Reads a line, or lines that are joined, and returns whether its end was there. -/
def readJoined (raw : Bool) : Nat → List (Char × Bool) → Run (List (Char × Bool) × Bool)
  | 0, done => return (done, false)
  | fuel + 1, done => do
    match ← Run.readLine 0 with
    | .error _ => return (done, false)
    | .ok cs =>
      let cs := cs.filter (· != Char.ofNat 0)
      if raw then
        let ended := cs.getLast? == some '\n'
        return (done ++ ((if ended then cs.dropLast else cs).map (·, false)), ended)
      else
        let (found, joined) := readEscapes cs
        if joined then readJoined raw fuel (done ++ found)
        else if found.getLast? == some ('\n', false) then return (done ++ found.dropLast, true)
        else return (done ++ found, false)

/-- The values of so many variables from a line: all but the last get a field each, and the last gets
the rest, without what ends it if that is one field. -/
def valuesFrom (separators : List Char) : Nat → List (Char × Bool) → List String
  | 0, _ => []
  | n + 1, cs =>
    let isSeparator (c : Char × Bool) : Bool := !c.2 && separators.contains c.1
    let isSpace (c : Char × Bool) : Bool := isSeparator c && isDefaultSeparator c.1
    let text (cs : List (Char × Bool)) := String.ofList (cs.map (·.1))
    let cs := cs.dropWhile isSpace
    let field := cs.takeWhile fun c => !isSeparator c
    let after := (cs.drop field.length).dropWhile isSpace
    let after := match after with
      | c :: rest => if isSeparator c then rest.dropWhile isSpace else after
      | [] => []
    if n = 0 then
      if after.isEmpty then [text field]
      else [text (cs.reverse.dropWhile isSpace).reverse]
    else text field :: valuesFrom separators n after

def read (arguments : List String) : Run Nat := do
  let (letters, names) ← options "p:r" arguments
  if names.isEmpty then fail "arg count"
  else
    let raw := letters.any (·.1 == 'r')
    let (cs, ended) ← readJoined raw maxRepeats []
    let separators := ((← separators?).getD defaultSeparators).toList
    for (name, value) in names.zip (valuesFrom separators names.length cs) do
      checkName name
      setVariable name value
    return if ended then 0 else 1

end SpecUpgrade.Shell.Builtin
