import SpecUpgrade.FileTree.Walk
import SpecUpgrade.Sandbox.Outcome
import SpecUpgrade.Sandbox.Runner
import SpecUpgrade.Text.Blank

/-!
A sandbox holds a copy of a project, so that a command may do there what it likes. Links of the
project are replaced in the copy by the files that they lead to; a link that leaves the project has
no place in it.
-/

namespace SpecUpgrade

inductive SandboxError where
  | io (error : FileError)
  | emptyCommand
  | commandNotFound (program : String)
  | spawn (program : String) (error : FileError)
  deriving DecidableEq, Repr

def SandboxError.message : SandboxError → String
  | io error => "sandbox IO error: " ++ error.message
  | emptyCommand => "command is empty"
  | commandNotFound program => "command not found: " ++ program
  | spawn program error => "failed to spawn " ++ program ++ ": " ++ error.message

structure Sandbox where
  home : Location
  project : Location
  keep : Bool
  timeLimit : Nat
  environment : List (String × String)
  persisted : Bool

namespace Sandbox

/-- Where the copy stands. -/
def workspace (s : Sandbox) : Location := s.home ++ ["workspace"]

/-- Where the files stand that are no part of the copy. -/
def notes (s : Sandbox) : Location := s.home ++ [".respec_meta"]

/-- The file that a link at a place leads to, if it is one of the project. -/
def linked? (files : FileTree) (root place : Location) : Option FileTree :=
  match files.canonical [] (root ++ place).path with
  | .ok target =>
    if root.isPrefixOf target then (files.get? target).filter FileTree.isFile else none
  | .error _ => none

mutual

/-- The copy of what stands at a place of the project, given from its root. -/
def copy (files : FileTree) (root place : Location) : FileTree → Option FileTree
  | .file content mode => if isExcluded place then none else some (.file content mode)
  | .device _ => none
  | .link _ => if isExcluded place then none else linked? files root place
  | .dir entries =>
    if isExcluded place then none else some (.dir (copyAll files root place entries))

def copyAll (files : FileTree) (root place : Location) :
    List (String × FileTree) → List (String × FileTree)
  | [] => []
  | (name, t) :: rest =>
    match copy files root (place ++ [name]) t with
    | some t => (name, t) :: copyAll files root place rest
    | none => copyAll files root place rest

end

def copyOf (files : FileTree) (root : Location) : FileTree :=
  match (files.get? root).bind (copy files root []) with
  | some (.dir entries) => .dir entries
  | _ => .dir []

def copied (s : Sandbox) (files : FileTree) : List String :=
  match files.get? s.workspace with
  | some t => t.files.map fun (place, _) => String.intercalate "/" place
  | none => []

def create (host : Host) (files : FileTree) (root : String) (keep : Bool) (timeLimit : Nat)
    (environment : List (String × String)) : Except SandboxError (Sandbox × FileTree) :=
  match files.canonical host.here root with
  | .error e => .error (.io e)
  | .ok project =>
    match host.freshPlace files "respec_sandbox_" with
    | .error e => .error (.io e)
    | .ok home =>
      let s : Sandbox := ⟨home, project, keep, timeLimit, environment, false⟩
      let files' := FileTree.set (.dir []) files s.notes
      .ok (s, FileTree.set (copyOf files project) files' s.workspace)

def setVariable (s : Sandbox) (key value : String) : Sandbox :=
  { s with environment := SortedMap.insert key value s.environment }

/-- Writes a file at a path from the workspace. The directories on the way are made, and they stay
when the file cannot be written. -/
def write (s : Sandbox) (files : FileTree) (path content : String) :
    Except SandboxError Unit × FileTree :=
  let path := joinPath s.workspace.path path
  match files.makeDirs [] "/" (pathSteps path).dropLast with
  | (.error e, files) => (.error (.io e), files)
  | (.ok (), files) =>
    match files.writeBytes [] path (Utf8.encode content) with
    | .error e => (.error (.io e), files)
    | .ok files => (.ok (), files)

/-- Tells a command that it runs in a sandbox. -/
def marker : String × String := ("RESPEC_SANDBOX", "1")

/-- The variables that a command sees; what is set for the sandbox comes before the marker. -/
def commandVariables (s : Sandbox) : List (String × String) :=
  SortedMap.ofList (marker :: s.environment)

def log (s : Sandbox) (name : String) : Location := s.notes ++ ["command." ++ name ++ ".log"]

/-- What came of a command. One whose time ran out has no exit status. -/
def outcome (s : Sandbox) (command : List String) (f : Finish) : Outcome where
  success := f.status == some 0 && !f.timedOut
  exitCode := if f.timedOut then none else f.status.map Int.ofNat
  timedOut := f.timedOut
  duration := .ofNanos (f.elapsed * 1000000)
  command := command
  stdoutLog := (s.log "stdout").path
  stderrLog := (s.log "stderr").path

/-- Empties the files that the output of a command goes to. -/
def openLogs (s : Sandbox) (files : FileTree) : Except FileError Unit × FileTree :=
  match files.writeBytes [] (s.log "stdout").path [] with
  | .error e => (.error e, files)
  | .ok files =>
    match files.writeBytes [] (s.log "stderr").path [] with
    | .error e => (.error e, files)
    | .ok files => (.ok (), files)

/-- Runs a command in the workspace. What it prints is kept among the notes. -/
def run (s : Sandbox) (host : Host) (files : FileTree) (command : List String) :
    Except SandboxError Outcome × FileTree :=
  match command with
  | [] => (.error .emptyCommand, files)
  | program :: arguments =>
    match host.runner.locate? files s.workspace program with
    | none => (.error (.commandNotFound program), files)
    | some found =>
      match s.openLogs files with
      | (.error e, files) => (.error (.io e), files)
      | (.ok (), files) =>
        match host.runner.start ⟨files, s.workspace, s.commandVariables, found, arguments,
          some s.timeLimit, .logged (s.log "stdout") (s.log "stderr")⟩ with
        | .error e => (.error (.spawn program e), files)
        | .ok f => (.ok (s.outcome command f), f.files)

/-- Leaves the sandbox where it is when it is disposed of. -/
def persist (s : Sandbox) : Sandbox := { s with persisted := true }

/-- Removes the sandbox, unless it is to be kept after an error. Returns where it is kept. -/
def dispose (s : Sandbox) (files : FileTree) (hadError : Bool) : Option Location × FileTree :=
  if hadError && s.keep then (some s.home, files)
  else if s.persisted then (none, files)
  else (none, files.erase s.home)

end Sandbox

namespace Outcome

/-- The end of what a command printed as errors, without blanks around it. -/
def errorTail (o : Outcome) (files : FileTree) (most : Nat) : String :=
  match files.readBytes [] o.stderrLog with
  | .ok bytes => Text.trim (Utf8.lossy (bytes.drop (bytes.length - most)))
  | .error _ => ""

def output (o : Outcome) (files : FileTree) : String :=
  match files.readText [] o.stdoutLog with
  | .ok text => text
  | .error _ => ""

end Outcome
end SpecUpgrade
