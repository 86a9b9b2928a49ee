import SpecUpgrade.Sandbox.Runner
import SpecUpgrade.Shell.Schedule
import SpecUpgrade.Shell.System

/-!
Commands from outside: how they are found, what they start with, and what comes of them.
-/

namespace SpecUpgrade.Shell

open Machine (Ending OpenFile)

/-- What a process does first: a command of a shell, or a program. -/
def begin (e : Engine) : Body → Run Nat
  | .command tested c => Run.asShell e (e.eval { tested := tested, exits := true } c)
  | .program name words => do
    Run.updateProcess Run.asProgram
    match program? e name with
    | some program => program words
    | none => return 127

/-- The life of a process, which may become other programs; `fuel` bounds their number. -/
def live (e : Engine) : Nat → Body → Run Ending
  | 0, _ => do
    Run.pause .never
    return .exited 0
  | fuel + 1, body => do
    match ← Run.attempt (begin e body) with
    | .ok status => return .exited (status % 256)
    | .error (.killed signal) => return .killed signal
    | .error (.replaced name words) => live e fuel (.program name words)
    | .error _ => return .exited ((← Run.process).status % 256)

def lifeOf (body : Body) : Run Ending := live (engine maxDepth) Run.maxRepeats body

def baseVariables : List (String × String) :=
  [("HOME", "/root"), ("PATH", Run.defaultPath)]

def firstProcess : Nat := 1000

/-- So many steps may be taken by all processes of a command. -/
def stepBudget : Nat := 2000000

def locateIn (files : FileTree) (here : Location) (name : String) : List String → Option String
  | [] => none
  | directory :: rest =>
    let path := joinPath directory name
    match files.canonical here path with
    | .ok place =>
      if ((files.get? place).map (·.isRunnable)).getD false then some path
      else locateIn files here name rest
    | .error _ => locateIn files here name rest

/-- Finds the program that a word names. A word with more than one name in it is a path from a
directory; others are looked for where programs are. -/
def locate? (files : FileTree) (here : Location) (word : String) : Option String :=
  let names := pathSteps word
  if names.isEmpty || names == [".."] then none
  else if isAbsolute word || word.startsWith "./" || 1 < names.length then
    locateIn files here word [here.path]
  else locateIn files here word (Run.defaultPath.splitOn ":")

/-- What a command starts with: nothing to read, and two open files to print to. -/
def firstState (l : Launch) : Except FileError State := do
  let m : Machine := {
    files := l.files
    limit := l.timeLimit
    budget := stepBudget
    nextProcess := firstProcess + 1
    running := [firstProcess]
    places := [(firstProcess, l.here)] }
  let (_, m) := m.addOpen { target := .device .null, reads := true }
  let m ← match l.output with
    | .captured =>
      let m := { m with stores := #[{}, {}] }
      let (_, m) := m.addOpen { target := .removed 0, writes := true }
      let (_, m) := m.addOpen { target := .removed 1, writes := true }
      pure m
    | .logged stdout stderr =>
      let (first, m) := m.openPath [] .write stdout.path FileTree.plainMode
      let _ ← first
      let (second, m) := m.openPath [] .write stderr.path FileTree.plainMode
      let _ ← second
      pure m
  let given := (baseVariables ++ l.environment).map fun (name, value) =>
    let v : Variable := { value := some (Byte.spread value), exported := true }
    (Byte.spread name, v)
  let p : Process := {
    number := firstProcess
    leader := firstProcess
    parent := firstProcess - 1
    descriptors := [(0, 0), (1, 1), (2, 2)]
    bindings := SortedMap.ofList given }
  return ⟨m, p, []⟩

/-- A process can still print what is captured. -/
def isHeld (m : Machine) (t : Task) : Bool :=
  t.process.descriptors.any fun (_, o) =>
    match m.opened[o]? with
    | some f => f.target = .removed 0 || f.target = .removed 1
    | none => false

/-- A command is over when its first process has ended and, if its output is captured, nobody can
print any more. -/
def isOver (captured : Bool) (s : Schedule) : Bool :=
  s.machine.ended.any (·.1 == firstProcess) &&
    !(captured && s.tasks.any (isHeld s.machine))

def finishOf (captured finished : Bool) (s : Schedule) : Finish :=
  let ending : Option Ending := (s.machine.ended.find? (·.1 == firstProcess)).map (·.2)
  let printed (store : Nat) : List UInt8 :=
    if captured then s.machine.contentOf (.removed store) else []
  { status := match finished, ending with
      | true, some (.exited status) => some status
      | _, _ => none
    timedOut := !finished
    elapsed := s.machine.clock
    stdout := printed 0
    stderr := printed 1
    files := s.machine.files }

/-- Runs a command. One whose time is up is killed; what it has started goes on as long as no time
passes. -/
def launch (l : Launch) : Except FileError Finish := do
  let state ← firstState l
  let path := Byte.spread l.program
  let words := path :: l.arguments.map Byte.spread
  match Run.image maxInterpreters path words state with
  | .done (.ok (.ok (name, words))) _ =>
    let captured := match l.output with
      | .captured => true
      | .logged _ _ => false
    let first : Task := ⟨state.process, .soon, lifeOf (.program name words)⟩
    let (finished, s) :=
      Schedule.run lifeOf (isOver captured) Run.maxRepeats ⟨state.machine, [first]⟩
    let s := if finished then s
      else ⟨s.machine, s.tasks.filter (·.process.number != firstProcess)⟩
    return finishOf captured finished (Schedule.settle lifeOf stepBudget s)
  | .done (.ok (.error e)) _ => .error e
  | _ => .error .missing

def runner : Runner := ⟨locate?, launch⟩

end SpecUpgrade.Shell
