import SpecUpgrade.FileTree.Change

/-!
Commands and what runs them. What a command does is not known here: a runner is any function from
what a command is given to what comes of it, the files after it among that.
-/

namespace SpecUpgrade

/-- Where the output of a command goes: back to who started it, or to two files. -/
inductive Output where
  | captured
  | logged (stdout stderr : Location)
  deriving DecidableEq, Repr

/-- What a command is given. Times are in milliseconds. -/
structure Launch where
  files : FileTree
  here : Location
  environment : List (String × String)
  program : String
  arguments : List String
  timeLimit : Option Nat
  output : Output

/-- What comes of a command. There is no status when it was killed, and no output here when it went
to files. -/
structure Finish where
  status : Option Nat
  timedOut : Bool
  elapsed : Nat
  stdout : List UInt8
  stderr : List UInt8
  files : FileTree

/-- Finds the program that a word names from a directory, and runs it. -/
structure Runner where
  locate? : FileTree → Location → String → Option String
  launch : Launch → Except FileError Finish

def hasNoNul (text : String) : Bool := !text.toList.contains (Char.ofNat 0)

/-- Starts a command in a directory, which must be there. -/
def Runner.start (r : Runner) (l : Launch) : Except FileError Finish :=
  if !(l.arguments.all hasNoNul && l.environment.all fun v => hasNoNul v.1 && hasNoNul v.2) then
    .error .nulInArgument
  else if !l.files.isDirAt [] l.here.path then .error .missing
  else r.launch l

/-- Where a run takes place: what runs commands, the working directory and the directory for
temporary files. -/
structure Host where
  runner : Runner
  here : Location
  temporary : Location

/-- A name that begins in a certain way and is that of no entry. -/
def freshName? (entries : List (String × FileTree)) (start : String) : Option String :=
  ((List.range (entries.length + 1)).map fun n => start ++ Nat.repr n).find? fun name =>
    (SortedMap.find? name entries).isNone

def Host.freshPlace (host : Host) (files : FileTree) (start : String) : Except FileError Location :=
  match files.get? host.temporary with
  | none => .error .missing
  | some (.dir entries) =>
    match freshName? entries start with
    | some name => .ok (host.temporary ++ [name])
    | none => .error .alreadyThere
  | some _ => .error .notDirectory

end SpecUpgrade
