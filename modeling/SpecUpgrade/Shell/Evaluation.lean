import SpecUpgrade.Shell.Builtin.Directory
import SpecUpgrade.Shell.Builtin.Names
import SpecUpgrade.Shell.Builtin.Processes
import SpecUpgrade.Shell.Builtin.Variables

/-!
What commands do. A command that holds others runs them through an `Engine`, which is this evaluation
itself with a bound on the depth.
-/

namespace SpecUpgrade.Shell

/-- How a command is run: its status is tested by another command, and the shell ends with it. -/
structure Flags where
  tested : Bool := false
  exits : Bool := false

structure Engine where
  eval : Flags → Command → Run Unit
  text : Flags → String → Run Unit

namespace Run

def asStatus (b : Bool) : Nat := if b then 0 else 1

def runTraps (e : Engine) : Run Unit := do
  Builtin.receive
  let p ← process
  if !p.pending.isEmpty then
    updateProcess fun p => { p with pending := [] }
    for signal in p.pending do
      match (← process).traps.find? (·.1 == signal) with
      | some (_, action) =>
        let status := (← process).status
        e.text {} action
        setStatus status
      | none => pure ()

def hasTraps : Run Bool := do return !(← process).traps.isEmpty

/-! Programs. -/

def programFault (e : FileError) : String × Nat :=
  if e = .missing || e = .notDirectory then ("not found", 127) else (e.reason, 126)

/-- Runs a program and waits for it; the shell becomes the program if it would end after it. -/
def runProgram (flags : Flags) (directories : List String) (words : List String) : Run Unit := do
  match ← resolve directories words with
  | .error e =>
    let word := words.headD ""
    let (reason, status) := programFault e
    warn (word ++ ": " ++ reason)
    let isNamed := !word.toList.contains '/' && (← findProgram? directories word).isNone
    setStatus (if isNamed then 127 else status)
  | .ok (name, words') =>
    if flags.exits && !(← hasTraps) then replace name words'
    else
      let child ← fork (.program name words') asSubshell
      let ending ← await child
      tellEnding ending
      setStatus ending.status

/-! Functions. -/

def maxCalls : Nat := 1000

def call (e : Engine) (flags : Flags) (body : Command) (arguments : List String) : Run Unit := do
  let p ← process
  if maxCalls ≤ p.calls then
    fail ("Maximum function recursion depth (" ++ Nat.repr maxCalls ++ ") reached")
  else
    updateProcess fun p => { p with
      parameters := arguments, loops := 0, calls := p.calls + 1 }
    let result ← attempt (e.eval { tested := flags.tested } body)
    updateProcess fun q => { q with
      parameters := p.parameters, loops := p.loops, calls := p.calls }
    match result with
    | .ok () => return
    | .error .returned => return
    | .error other => throw other

/-! Built-in commands that run others or end what runs them. -/

/-- The status that an argument asks for, or else the last one. -/
def statusArgument (arguments : List String) : Run Nat := do
  match arguments with
  | [] => return (← process).status
  | text :: _ => number text

/-- How many loops a command leaves, of those that it is in. -/
def loopArgument (arguments : List String) : Run Nat := do
  let n ← match arguments with
    | [] => pure 1
    | text :: _ =>
      let n ← number text
      if n == 0 then fail ("Illegal number: " ++ text) else pure n
  return min n (← process).loops

def source (e : Engine) (arguments : List String) : Run Nat := do
  match arguments with
  | [] => return 0
  | name :: _ =>
    let path ← if name.toList.contains '/' then pure name
      else
        match ← findFile? (← searchPath) name with
        | some path => pure path
        | none => fail (name ++ ": not found")
    match ← openFile .read path with
    | .error reason => fail ("cannot open " ++ path ++ ": " ++ openReason .read reason)
    | .ok o =>
      let text := (← readAllOpened o).toOption.getD []
      updateProcess fun p => { p with builtin := some path }
      match ← attempt (e.text {} (String.ofList text)) with
      | .ok () => return (← process).status
      | .error .returned => return (← process).status
      | .error other => throw other

def exec (arguments : List String) : Run Nat := do
  if arguments.isEmpty then return 0
  else
    match ← resolve (← searchPath) arguments with
    | .ok (name, words) => replace name words
    | .error e =>
      let (reason, status) := programFault e
      warn (arguments.headD "" ++ ": " ++ reason)
      setStatus status
      stop .exit

def command (arguments : List String) : Run Nat := do
  let (letters, arguments) ← options "pvV" arguments
  match arguments, letters.getLast? with
  | name :: _, some (c, _) => if c == 'p' then return 0 else Builtin.describe (c == 'V') name
  | _, _ => return 0

def builtin? (e : Engine) (flags : Flags) : String → Option (List String → Run Nat)
  | ":" => some fun _ => return 0
  | "true" => some fun _ => return 0
  | "false" => some fun _ => return 1
  | "echo" => some Builtin.echo
  | "printf" => some Builtin.printf
  | "test" => some Builtin.test
  | "[" => some Builtin.bracket
  | "cd" => some Builtin.cd
  | "chdir" => some Builtin.cd
  | "pwd" => some Builtin.pwd
  | "umask" => some Builtin.umask
  | "export" => some Builtin.exportNames
  | "readonly" => some Builtin.fixNames
  | "unset" => some Builtin.unset
  | "local" => some Builtin.makeLocal
  | "shift" => some Builtin.shift
  | "set" => some Builtin.set
  | "read" => some Builtin.read
  | "kill" => some Builtin.kill
  | "wait" => some Builtin.wait
  | "trap" => some Builtin.trap
  | "type" => some Builtin.type
  | "command" => some command
  | "." => some (source e)
  | "exec" => some exec
  | "eval" => some fun arguments => do
    e.text { tested := flags.tested } (String.intercalate " " arguments)
    return (← process).status
  | "exit" => some fun arguments => do
    setStatus ((← statusArgument arguments) % 256)
    stop .exit
  | "return" => some fun arguments => do
    setStatus (← statusArgument arguments)
    stop .returned
  | "break" => some fun arguments => do
    let n ← loopArgument arguments
    setStatus 0
    if n == 0 then return 0 else stop (.broken n)
  | "continue" => some fun arguments => do
    let n ← loopArgument arguments
    setStatus 0
    if n == 0 then return 0 else stop (.continued n)
  | _ => none

/-- Runs a built-in command. An error in one that is not special does not end the shell. -/
def runBuiltin (special : Bool) (name : String) (action : List String → Run Nat)
    (arguments : List String) : Run Unit := do
  let before := (← process).builtin
  updateProcess fun p => { p with builtin := some name }
  let result ← attempt (action arguments)
  updateProcess fun p => { p with builtin := before }
  match result with
  | .ok status => setStatus status
  | .error .fault => if special then throw .fault else return
  | .error other => throw other

/-! Simple commands. -/

/-- What the words of a command say before it is run: the words, whether functions count, where
programs are looked for, and whether the first of the built-in commands is special. -/
structure Plan where
  words : List String := []
  functions : Bool := true
  directories : Option (List String) := none
  special : Option Bool := none

def takesAssignments (name : String) : Bool :=
  ["export", "readonly", "local"].contains name

/-- Expands words until there are so many, and returns the words that are left. -/
def expandUntil (n : Nat) : List Word → List String → Run (List String × List Word)
  | [], done => return (done, [])
  | w :: rest, done => do
    if n ≤ done.length then return (done, w :: rest)
    else expandUntil n rest (done ++ (← expandWords capture [w]))

/-- The name that a command has, without commands before it that only say how to find it. -/
def planName : Nat → Plan → List Word → Run (Plan × List Word)
  | 0, plan, rest => return (plan, rest)
  | fuel + 1, plan, rest => do
    let name := plan.words.headD ""
    let isFunction := plan.functions && (← process).functions.any (·.1 == name)
    let isBuiltin := !isFunction && (Builtin.isSpecialName name || Builtin.plainNames.contains name)
    let plan := if isBuiltin && plan.special.isNone
      then { plan with special := some (Builtin.isSpecialName name) } else plan
    if !isBuiltin || name != "command" then return (plan, rest)
    else
      let (words, rest) ← expandUntil 2 rest plan.words
      let plan := { plan with words := words }
      match words with
      | _ :: "-p" :: more =>
        planName fuel { plan with
          words := name :: more, directories := some (defaultPath.splitOn ":") } rest
      | _ :: "--" :: more =>
        planName fuel { plan with words := more, functions := false } rest
      | _ :: next :: _ =>
        if next.startsWith "-" && next != "-" then return (plan, rest)
        else planName fuel { plan with words := words.drop 1, functions := false } rest
      | _ => return (plan, rest)

def expandRest (assigning : Bool) (words : List Word) : Run (List String) := do
  let mut done : List (List String) := []
  for w in words do
    match if assigning then assignment? w else none with
    | some (name, value) => done := [name ++ "=" ++ (← expandValue capture value)] :: done
    | none => done := (← expandWords capture [w]) :: done
  return done.reverse.flatten

def plan (words : List Word) : Run Plan := do
  let (first, rest) ← expandUntil 1 words []
  if first.isEmpty then return {}
  else
    let (p, rest) ← planName (words.length + first.length + 1) { words := first } rest
    let assigning := p.special.isSome && takesAssignments (p.words.headD "")
    return { p with words := p.words ++ (← expandRest assigning rest) }

/-- Shows a command that is about to be run, where errors went before its redirections. -/
def trace (held : Kept) (assignments : List (String × String)) (words : List String) :
    Run Unit := do
  let shown := assignments.map (fun (name, value) => name ++ "=" ++ value) ++ words
  let sign := (← valueOf? "PS4").getD ""
  let n := ((held.find? (·.1 == 2)).bind (·.2)).getD 2
  emit n (sign ++ String.intercalate " " shown ++ "\n")

/-- Sets the variables that are assigned before a command; those of a command that is no special one
are had back after it. -/
def assign (kept exported : Bool) : List Word → List (String × String) →
    Run (List (String × String))
  | [], done => return done.reverse
  | w :: rest, done => do
    match assignment? w with
    | some (name, value) =>
      let text ← expandValue capture value
      if kept then keepVariable name
      setVariable name text
      if kept || exported then changeVariable name fun v => { v with exported := true }
      assign kept exported rest ((name, text) :: done)
    | none => assign kept exported rest done

def restoreVariables : Run Unit :=
  updateProcess fun p =>
    match p.locals with
    | [] => p
    | kept :: rest =>
      let bindings := kept.foldl (fun vs (name, v) =>
        let others := vs.filter fun (n, _) => n != name
        match v with
        | some v => SortedMap.insert name v others
        | none => others) p.bindings
      { p with locals := rest, bindings := bindings }

def dispatch (e : Engine) (flags : Flags) (p : Plan) : Run Unit := do
  match p.words with
  | [] => setStatus ((← process).outputStatus.getD 0)
  | name :: arguments =>
    let known := (← process).functions
    let functions := if p.functions then known else []
    match functions.find? (·.1 == name) with
    | some (_, _, body) => call e flags body arguments
    | none =>
      match builtin? e flags name with
      | some action => runBuiltin (p.special.getD false) name action arguments
      | none =>
        let directories ← match p.directories with
          | some found => pure found
          | none => searchPath
        runProgram flags directories p.words

def evalSimple (e : Engine) (flags : Flags) (line : Nat) (assignments words : List Word)
    (redirects : List Redirect) : Run Unit := do
  updateProcess fun p => { p with line := line, outputStatus := none }
  let p ← plan words
  let special := p.special.getD false
  let kept := !p.words.isEmpty && !special
  let isExec := p.special.isSome && p.words.head? == some "exec"
  let openings ← redirects.mapM prepare
  let (held, failure) ← redirect true openings []
  match failure with
  | some message =>
    warn message
    restore held
    setStatus faultStatus
    if special then stop .fault
  | none =>
    unwinding (do
      if kept then updateProcess fun p => { p with locals := [] :: p.locals }
      let run : Run Unit := do
        let shown ← assign kept (isExec && 1 < p.words.length) assignments []
        if ← hasOption 'x' then trace held shown p.words
        if isExec && p.words.length == 1 then release held
        dispatch e flags p
      if kept then unwinding run restoreVariables else run)
      (if isExec && p.words.length == 1 then return else restore held)

/-! Compound commands. -/

/-- Goes on after the body of a loop: whether there is another turn. Loops further out may be meant
by what has stopped the body. -/
def afterBody (result : Except Stop Unit) : Run Bool :=
  match result with
  | .ok () => return true
  | .error (.broken n) => if n ≤ 1 then return false else throw (.broken (n - 1))
  | .error (.continued n) => if n ≤ 1 then return true else throw (.continued (n - 1))
  | .error other => throw other

def insideLoop {α : Type} (action : Run α) : Run α := do
  updateProcess fun p => { p with loops := p.loops + 1 }
  unwinding action (updateProcess fun p => { p with loops := p.loops - 1 })

def evalLoop (e : Engine) (flags : Flags) (awaited : Bool) (condition body : Command) :
    Run Unit := do
  let rec turn : Nat → Nat → Run Nat
    | 0, status => do
      pause .never
      return status
    | fuel + 1, status => do
      match ← attempt (e.eval { tested := true } condition) with
      | .ok () =>
        if ((← process).status == 0) == awaited then return status
        else
          let more ← afterBody (← attempt (e.eval { tested := flags.tested } body))
          if more then turn fuel (← process).status else return (← process).status
      | result => if ← afterBody result then turn fuel status else return status
  let status ← insideLoop (turn maxRepeats 0)
  setStatus status

def evalEach (e : Engine) (flags : Flags) (line : Nat) (name : String) (words : List Word)
    (body : Command) : Run Unit := do
  updateProcess fun p => { p with line := line }
  let values ← expandWords capture words
  let rec turn : List String → Nat → Run Nat
    | [], status => return status
    | value :: rest, _ => do
      setVariable name value
      let more ← afterBody (← attempt (e.eval { tested := flags.tested } body))
      if more then turn rest (← process).status else return (← process).status
  let status ← insideLoop (turn values 0)
  setStatus status

def findArm (text : String) : List (List Word × Command) → Run (Option Command)
  | [] => return none
  | (patterns, body) :: rest => do
    for w in patterns do
      if (← expandPattern capture w).matches text then return some body
    findArm text rest

def evalChoice (e : Engine) (flags : Flags) (line : Nat) (word : Word)
    (arms : List (List Word × Command)) : Run Unit := do
  updateProcess fun p => { p with line := line }
  let text ← expandText capture word
  match ← findArm text arms with
  | some .nothing => setStatus 0
  | some body => e.eval flags body
  | none => setStatus 0

/-- Starts the commands of a pipeline, each with its output leading into the next one. -/
def startPipeline (change : Process → Process) :
    List Command → Option Nat → List Nat → Run (List Nat)
  | [], _, done => return done.reverse
  | c :: rest, input, done => do
    let own := (← process).descriptors
    let own := match input with
      | some reader => leading 0 reader own
      | none => own
    let isFirst := done.isEmpty
    let (own, next) ← if rest.isEmpty then pure (own, none)
      else do
        let (reader, writer) ← onMachine fun m => m.addPipe []
        pure (leading 1 writer own, some reader)
    let child ← fork (.command false c) fun p =>
      let p := { asSubshell p with descriptors := own }
      if isFirst then change p else p
    startPipeline change rest next (child :: done)

def evalPipeline (commands : List Command) : Run Unit := do
  let mut status := 0
  for n in ← startPipeline id commands none [] do
    let ending ← await n
    tellEnding ending
    status := ending.status
  setStatus status

/-- A process that runs beside the shell: it reads nothing, and two signals have no effect on it. -/
def asBackground (nothing : Option Nat) (p : Process) : Process :=
  { asSubshell p with
    descriptors := match nothing with
      | some o => leading 0 o p.descriptors
      | none => p.descriptors
    ignored := [Machine.signalInterrupt, Machine.signalQuit] ++ p.ignored }

/-- Adds a job under the first number that is free. -/
def addJob (processes : List Nat) : Run Unit := do
  let ended := (← machine).ended.map (·.1)
  updateProcess fun p =>
    let isKept (j : Job) : Bool := !(j.waited && j.processes.all ended.contains)
    let used := (p.jobs.filter isKept).map (·.number)
    let number := ((List.range (used.length + 1)).map (· + 1)).find? (!used.contains ·) |>.getD 1
    { p with
      jobs := p.jobs.filter (·.number != number) ++ [{ number, processes }]
      lastJob := processes.getLast? }

def evalBackground (body : Command) : Run Unit := do
  let nothing := (← openFile .read "/dev/null").toOption
  let change (p : Process) : Process := asBackground nothing p
  match body with
  | .pipeline commands => addJob (← startPipeline change commands none [])
  | body => addJob [← fork (.command false body) change]
  setStatus 0

def evalRedirected (e : Engine) (flags : Flags) (line : Nat) (body : Command)
    (redirects : List Redirect) : Run Unit := do
  updateProcess fun p => { p with line := line }
  let openings ← redirects.mapM prepare
  let (held, failure) ← redirect true openings []
  match failure with
  | some message =>
    warn message
    restore held
    setStatus faultStatus
    if (← hasOption 'e') && !flags.tested then stop .exit
  | none => unwinding (e.eval { tested := flags.tested } body) (restore held)

def evalSubshell (e : Engine) (flags : Flags) (line : Nat) (body : Command)
    (redirects : List Redirect) : Run Unit := do
  updateProcess fun p => { p with line := line }
  let inner := if redirects.isEmpty then body else .redirected line body redirects
  if flags.exits && !(← hasTraps) then
    updateProcess asSubshell
    e.eval flags inner
  else
    let child ← fork (.command flags.tested inner) asSubshell
    let ending ← await child
    tellEnding ending
    setStatus ending.status

/-- Ends the shell if a command that nobody tests has failed and this is asked for. -/
def checkStatus (flags : Flags) : Run Unit := do
  if (← process).status != 0 && !flags.tested && (← hasOption 'e') then stop .exit

def evalWith (e : Engine) (flags : Flags) (c : Command) : Run Unit := do
  count
  if !(← hasOption 'n') then
    runTraps e
    match c with
    | .nothing => return
    | .simple line assignments words redirects =>
      evalSimple e flags line assignments words redirects
      runTraps e
      checkStatus flags
    | .redirected line body redirects => evalRedirected e flags line body redirects
    | .subshell line body redirects =>
      evalSubshell e flags line body redirects
      runTraps e
      checkStatus flags
    | .pipeline commands =>
      evalPipeline commands
      runTraps e
      checkStatus flags
    | .background body => evalBackground body
    | .sequence first second =>
      e.eval { tested := flags.tested } first
      e.eval flags second
    | .onSuccess first second =>
      e.eval { tested := true } first
      if (← process).status == 0 then e.eval flags second
    | .onFailure first second =>
      e.eval { tested := true } first
      if (← process).status != 0 then e.eval flags second
    | .inverted body =>
      e.eval { tested := true } body
      setStatus (asStatus ((← process).status != 0))
    | .branch condition body other =>
      e.eval { tested := true } condition
      if (← process).status == 0 then e.eval flags body
      else
        match other with
        | .nothing => setStatus 0
        | other => e.eval flags other
    | .loop awaited condition body => evalLoop e flags awaited condition body
    | .each line name words body => evalEach e flags line name words body
    | .choice line word arms => evalChoice e flags line word arms
    | .define line name body =>
      updateProcess fun p => { p with
        functions := (name, line, body) :: p.functions.filter (·.1 != name) }
      setStatus 0
    runTraps e
    if flags.exits then stop .exit

/-! Texts. -/

/-- Runs the commands of a text line by line; `fuel` bounds their number. -/
def runInput (e : Engine) (flags : Flags) : Nat → Input → Run Unit
  | 0, _ => return
  | fuel + 1, input => do
    let p ← process
    let input := { input with documents := p.documents }
    match Shell.readLine input with
    | .error fault =>
      updateProcess fun p => { p with line := fault.line }
      fail fault.message
    | .ok (c, after) =>
      updateProcess fun p => { p with documents := after.documents }
      if ← hasOption 'v' then
        printError (String.ofList (input.rest.take (input.rest.length - after.rest.length)))
      match c with
      | some c => e.eval { flags with exits := flags.exits && after.isFinished } c
      | none => pure ()
      if after.isFinished then return else runInput e flags fuel after

/-- Runs the commands of a text. One without commands succeeds. -/
def runText (e : Engine) (flags : Flags) (text : String) : Run Unit := do
  let before := (← process).line
  setStatusIfEmpty text
  runInput e flags (text.length + 2) { rest := text.toList }
  updateProcess fun p => { p with line := before }
where
  setStatusIfEmpty (text : String) : Run Unit :=
    if text.toList.all fun c => c == ' ' || c == '\t' || c == '\n' then setStatus 0 else return

end Run

def maxDepth : Nat := 100000

def engine : Nat → Engine
  | 0 => ⟨fun _ _ => Run.fail "Maximum depth reached", fun _ _ => Run.fail "Maximum depth reached"⟩
  | n + 1 =>
    ⟨fun flags c => Run.evalWith (engine n) flags c,
      fun flags text => Run.runText (engine n) flags text⟩

end SpecUpgrade.Shell
