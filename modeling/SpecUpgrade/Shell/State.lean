import SpecUpgrade.Machine.Signal
import SpecUpgrade.Shell.Input
import SpecUpgrade.Text.Byte

/-!
Processes of a machine, what a shell keeps in one, and what a process does: steps that change its
state and the machine, with pauses in which other processes take theirs. A process may stop at any
step, and what it has done until then stays.
-/

namespace SpecUpgrade.Shell

open Machine (OpenFile Mode Ending)

structure Variable where
  value : Option String := none
  exported : Bool := false
  fixed : Bool := false
  deriving DecidableEq, Repr

/-- A command that a shell has started beside itself: its processes, the last of which gives the
status. One that has been waited for makes room for others. -/
structure Job where
  number : Nat
  processes : List Nat
  waited : Bool := false
  deriving Repr

/-- What a new process starts with: a command of the shell that made it, or a program with the words
it is called with. -/
inductive Body where
  | command (tested : Bool) (c : Command)
  | program (name : String) (words : List String)

/-- A process. Its descriptors lead to open files of the machine. The leader is the shell that it
belongs to. -/
structure Process where
  number : Nat := 0
  leader : Nat := 0
  parent : Nat := 1
  descriptors : List (Nat × Nat) := []
  mask : Nat := 0o022
  ignored : List Nat := []
  bindings : List (String × Variable) := []
  functions : List (String × Nat × Command) := []
  documents : Array Word := #[]
  name : String := "sh"
  parameters : List String := []
  options : List Char := []
  status : Nat := 0
  outputStatus : Option Nat := none
  jobs : List Job := []
  lastJob : Option Nat := none
  line : Nat := 1
  builtin : Option String := none
  loops : Nat := 0
  calls : Nat := 0
  sources : Nat := 0
  locals : List (List (String × Option Variable)) := []
  traps : List (Nat × String) := []
  pending : List Nat := []
  directory : String := "/"

/-- A process that has been made and has not taken a step yet. -/
structure Start where
  process : Process
  body : Body

/-- What a process sees: the machine, itself, and the processes it has made since its last pause. -/
structure State where
  machine : Machine
  process : Process
  started : List Start := []

/-- Why a process goes no further with what it does. -/
inductive Stop where
  | exit
  | fault
  | returned
  | broken (loops : Nat)
  | continued (loops : Nat)
  | killed (signal : Nat)
  | replaced (program : String) (words : List String)
  deriving DecidableEq, Repr

inductive Wake where
  | soon
  | time (clock : Nat)
  | child (number : Nat)
  | childOrSignal (number : Nat)
  | childUntil (number clock : Nat)
  | readable (store : Nat)
  | writable (store : Nat)
  | never
  deriving DecidableEq, Repr

/-- What comes of a step: a result, or a pause and what is done after it. -/
inductive Step (α : Type) where
  | done (result : Except Stop α) (state : State)
  | paused (wake : Wake) (state : State) (next : State → Step α)

def Run (α : Type) : Type := State → Step α

namespace Step

def bind {α β : Type} (f : α → Run β) : Step α → Step β
  | done (.ok a) s => f a s
  | done (.error e) s => done (.error e) s
  | paused wake s next => paused wake s fun s => (next s).bind f

def handle {α : Type} (f : Stop → Run α) : Step α → Step α
  | done (.ok a) s => done (.ok a) s
  | done (.error e) s => f e s
  | paused wake s next => paused wake s fun s => (next s).handle f

def attempt {α : Type} : Step α → Step (Except Stop α)
  | done r s => done (.ok r) s
  | paused wake s next => paused wake s fun s => (next s).attempt

end Step

namespace Run

instance : Monad Run where
  pure a := fun s => .done (.ok a) s
  bind x f := fun s => (x s).bind f

instance : MonadStateOf State Run where
  get := fun s => .done (.ok s) s
  set s := fun _ => .done (.ok ()) s
  modifyGet f := fun s =>
    let (a, s) := f s
    .done (.ok a) s

instance : MonadExceptOf Stop Run where
  throw e := fun s => .done (.error e) s
  tryCatch x f := fun s => (x s).handle f

def attempt {α : Type} (action : Run α) : Run (Except Stop α) := fun s => (action s).attempt

/-- Lets other processes take steps. -/
def pause (wake : Wake) : Run Unit := fun s => .paused wake s fun s => .done (.ok ()) s

def maxRepeats : Nat := 1000000000

end Run
end SpecUpgrade.Shell
