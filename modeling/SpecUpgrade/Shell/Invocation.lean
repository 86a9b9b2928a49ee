import SpecUpgrade.Shell.Evaluation

/-!
The shell as a program: what it starts with, what its arguments ask for, and how it ends.
-/

namespace SpecUpgrade.Shell

namespace Run

def runExitTrap (e : Engine) : Run Unit := do
  match (← process).traps.find? (·.1 == 0) with
  | none => return
  | some (_, action) =>
    let status := (← process).status
    updateProcess fun p => { p with traps := p.traps.filter (·.1 != 0) }
    match ← attempt (e.text {} action) with
    | .ok () => setStatus status
    | .error (.killed signal) => throw (.killed signal)
    | .error (.replaced name words) => throw (.replaced name words)
    | .error _ => return

/-- Runs something as a shell that ends after it, and returns the status it ends with. -/
def asShell (e : Engine) (action : Run Unit) : Run Nat := do
  match ← attempt action with
  | .error (.killed signal) => throw (.killed signal)
  | .error (.replaced name words) => throw (.replaced name words)
  | _ =>
    runExitTrap e
    return (← process).status

def startVariables (parent : Nat) : List (String × String) :=
  [("IFS", defaultSeparators), ("PPID", Nat.repr parent), ("PS1", "# "),
   ("PS2", "> "), ("PS4", "+ ")]

/-- Sets up the variables of a shell. The directory it is in is called as the environment calls it,
if that is right. -/
def setUp (name : String) : Run Unit := do
  let p ← process
  let known := p.bindings.filter fun v => isName v.1
  let bindings := (startVariables p.parent).foldl (fun vs (name, value) =>
    SortedMap.insert name { value := some value } vs) known
  let bindings := if known.any (·.1 == "PATH") then bindings
    else SortedMap.insert "PATH" { value := some defaultPath } bindings
  let place ← here
  let given ← valueOf? "PWD"
  let isRight ← match given with
    | some path =>
      if !isAbsolute path then pure false
      else
        match ← look path with
        | .ok (found, _) => pure (found == place)
        | .error _ => pure false
    | none => pure false
  let directory := if isRight then given.getD "" else Byte.spread place.path
  updateProcess fun p => { p with
    name := name
    leader := p.number
    directory := directory
    bindings := SortedMap.insert "PWD" { value := some directory, exported := true } bindings }

/-- Runs a shell by its arguments: a command, the commands of a file, or those that it reads. -/
def invoke (e : Engine) (arguments : List String) : Run Unit := do
  updateProcess fun p => { p with line := 0 }
  let (rest, _, isCommand) ← Builtin.readOptions true (arguments.length + 1) arguments false
  let reads := (← process).options.contains 's'
  let readCommands : Run Unit := do
    e.text {} (String.ofList ((← readAll 0).toOption.getD []))
  let setParameters (parameters : List String) : Run Unit :=
    updateProcess fun p => { p with parameters := parameters, line := 1 }
  if isCommand then
    match rest with
    | [] => fail "-c requires an argument"
    | text :: more =>
      match more with
      | name :: parameters =>
        updateProcess fun p => { p with name := name }
        setParameters parameters
      | [] => setParameters []
      e.text { exits := !reads } text
      if reads then readCommands
  else
    match rest with
    | file :: parameters =>
      if reads then
        setParameters rest
        readCommands
      else
        match ← openFile .read file with
        | .error reason => fail ("cannot open " ++ file ++ ": " ++ openReason .read reason)
        | .ok o =>
          match ← readAllOpened o with
          | .error _ => setParameters parameters
          | .ok text =>
            updateProcess fun p => { p with name := file }
            setParameters parameters
            e.text {} (String.ofList text)
    | [] =>
      setParameters []
      Builtin.setOption true 's'
      readCommands

end Run

def shellProgram (e : Engine) (words : List String) : Run Nat := do
  Run.setUp (words.headD "sh")
  Run.asShell e (Run.invoke e (words.drop 1))

end SpecUpgrade.Shell
