import SpecUpgrade.Shell.Builtin.Output
import SpecUpgrade.Shell.Redirection

/-!
Built-in commands for other processes and for signals.
-/

namespace SpecUpgrade.Shell.Builtin

open Run
open Machine (Ending)

def signal? (text : String) : Option Nat :=
  if !text.isEmpty && text.toList.all Char.isDigit then
    (text.toNat?).filter (· < Machine.signalEnd)
  else Machine.signalOfName? text

def killUsage : String :=
  "Usage: kill [-s sigspec | -signum | -sigspec] [pid | job]... or\nkill -l [exitstatus]"

/-- Sends a signal to a process; whether there is such a process. -/
def sendSignal (signal target : Nat) : Run Bool := do
  let m ← machine
  if target == (← process).number || m.running.contains target then
    if signal != 0 then
      updateMachine fun m => { m with signals := m.signals ++ [(target, signal)] }
    return true
  else return false

/-- Takes the signals that have come for this process: some are kept for what has been laid down for
them, some end the process. -/
def receive : Run Unit := do
  let p ← process
  let mine := (← machine).signals.filter (·.1 == p.number)
  if !mine.isEmpty then
    updateMachine fun m => { m with signals := m.signals.filter (·.1 != p.number) }
    for (_, signal) in mine do
      if signal == Machine.signalKill then stop (.killed signal)
      else if p.ignored.contains signal then pure ()
      else if p.traps.any (·.1 == signal) then
        updateProcess fun p => { p with pending := p.pending ++ [signal] }
      else if Machine.isHarmless signal then pure ()
      else if Machine.isPausing signal then pause .never
      else stop (.killed signal)

def processOf (text : String) : Run (Option Nat) := do
  if text.startsWith "%" then
    match (← process).jobs.find? fun j => "%" ++ Nat.repr j.number == text with
    | some _ => return none
    | none => fail ("No such job: " ++ text)
  else if text.startsWith "-" then
    let n ← number (text.drop 1).toString
    return if n == (← process).leader then some n else none
  else return some (← number text)

def kill (arguments : List String) : Run Nat := do
  match arguments with
  | [] => fail killUsage
  | first :: rest =>
    let bySign := if first.startsWith "-" then signal? (first.drop 1).toString else none
    let (letters, targets) ← if bySign.isSome then pure ([], rest)
      else if first.startsWith "-" then options "s:" arguments
      else pure ([], arguments)
    let signal ← match bySign, letters with
      | some n, _ => pure n
      | none, (_, text) :: _ =>
        match signal? text with
        | some n => pure n
        | none => fail ("invalid signal number or name: " ++ text)
      | none, [] => pure Machine.signalTerminate
    if targets.isEmpty then fail killUsage
    else
      let mut status := 0
      for text in targets do
        let leader := (← process).leader
        let reached ← match ← processOf text with
          | some n => sendSignal signal (if n == 0 then leader else n)
          | none => pure false
        if !reached then
          warn "No such process\n"
          status := 1
      receive
      return status

/-- Waits for a process; a signal that something has been laid down for ends the wait. -/
def awaitOrSignal (number : Nat) : Run (Except Nat Ending) := do
  if (← ending? number).isNone then pause (.childOrSignal number)
  receive
  match (← process).pending with
  | signal :: _ => return .error (128 + signal)
  | [] => return .ok ((← ending? number).getD (.exited 0))

/-- Waits for all processes of a job and returns the status of the last. -/
def awaitJob (told : Bool) (j : Job) : Run Nat := do
  updateProcess fun p => { p with
    jobs := p.jobs.map fun k => if k.number == j.number then { k with waited := true } else k }
  let mut status := 0
  for n in j.processes do
    match ← awaitOrSignal n with
    | .error interrupted => return interrupted
    | .ok e =>
      if told then tellEnding e
      status := e.status
  return status

def wait (arguments : List String) : Run Nat := do
  let (_, arguments) ← options "" arguments
  if arguments.isEmpty then
    for j in (← process).jobs do
      let status ← awaitJob false j
      if !(← process).pending.isEmpty then return status
    return 0
  else
    let mut status := 0
    for text in arguments do
      let jobs := (← process).jobs
      if text.startsWith "%" then
        match jobs.find? fun j => "%" ++ Nat.repr j.number == text with
        | some j => status ← awaitJob true j
        | none => fail ("No such job: " ++ text)
      else
        let n ← number text
        match jobs.find? fun j => j.processes.getLast? == some n with
        | some j => status ← awaitJob true j
        | none => status := 127
    return status

def trap (arguments : List String) : Run Nat := do
  let (_, arguments) ← options "" arguments
  match arguments with
  | [] =>
    let p ← process
    let all := p.traps ++ p.ignored.map (·, "")
    let lines := (List.range Machine.signalEnd).filterMap fun n =>
      (all.find? (·.1 == n)).map fun (_, text) =>
        "trap -- " ++ quoted text ++ " " ++ Machine.signalName n ++ "\n"
    say (String.join lines).toList
  | first :: rest =>
    let isSignal := !first.isEmpty && first.toList.all Char.isDigit && (signal? first).isSome
    let (action, names) := if rest.isEmpty || isSignal then (none, arguments)
      else (if first == "-" then none else some first, rest)
    for name in names do
      match signal? name with
      | none =>
        printError ("trap: " ++ name ++ ": bad trap\n")
        return 1
      | some n =>
        updateProcess fun p => { p with
          traps := p.traps.filter (·.1 != n) ++ match action with
            | some "" => []
            | some text => [(n, text)]
            | none => []
          ignored := p.ignored.filter (· != n) ++ if action == some "" then [n] else [] }
    return 0

end SpecUpgrade.Shell.Builtin
