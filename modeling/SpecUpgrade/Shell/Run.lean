import SpecUpgrade.Shell.State

/-!
The actions that commands and programs are made of: files, descriptors, variables, time and other
processes.
-/

namespace SpecUpgrade.Shell.Run

open Machine (OpenFile Mode Ending)

def process : Run Process := do return (← get).process

def updateProcess (f : Process → Process) : Run Unit :=
  modify fun s => { s with process := f s.process }

def machine : Run Machine := do return (← get).machine

def updateMachine (f : Machine → Machine) : Run Unit :=
  modify fun s => { s with machine := f s.machine }

/-- Does something with the machine that has a result. -/
def onMachine {α : Type} (f : Machine → α × Machine) : Run α :=
  modifyGet fun s =>
    let (a, m) := f s.machine
    (a, { s with machine := m })

def setStatus (status : Nat) : Run Unit := updateProcess fun p => { p with status := status }

/-- Stops by giving up the status that is set. -/
def stop {α : Type} (reason : Stop) : Run α := throw reason

/-! Files. -/

def here : Run Location := do
  let s ← get
  return s.machine.here s.process.number

def files : Run FileTree := do return (← machine).files

/-- The text of a path as the files have it. -/
def pathText (path : String) : String := Byte.gather path

/-- What stands at a place; a directory that has been taken away is empty. -/
def standing? (t : FileTree) (place : Location) : Option FileTree :=
  if Machine.isLost place then some (.dir []) else t.get? place

def look (path : String) : Run (Except FileError (Location × FileTree)) := do
  let t ← files
  match t.canonical (← here) (pathText path) with
  | .error e => return .error e
  | .ok place =>
    match standing? t place with
    | some found => return .ok (place, found)
    | none => return .error .missing

/-- What stands at a path, with its place; a link at the end is not followed. -/
def lookEntry (path : String) : Run (Except FileError (Location × FileTree)) := do
  let t ← files
  match t.entryPlace (← here) (pathText path) with
  | .error e => return .error e
  | .ok place =>
    match standing? t place with
    | some found => return .ok (place, found)
    | none => return .error .missing

def changeFiles (f : FileTree → Location → Except FileError FileTree) :
    Run (Except FileError Unit) := do
  let place ← here
  onMachine fun m => m.change fun t => f t place

def newMode : Run Nat := do
  return Nat.land 0o666 (0o777 - (← process).mask)

/-! Descriptors. -/

def descriptor? (n : Nat) : Run (Option Nat) := do
  return ((← process).descriptors.find? (·.1 == n)).map (·.2)

def setDescriptor (n : Nat) (opened : Option Nat) : Run Unit :=
  updateProcess fun p =>
    let rest := p.descriptors.filter (·.1 != n)
    { p with descriptors := match opened with
        | some o => (n, o) :: rest
        | none => rest }

def firstFree : Run Nat := do
  let used := (← process).descriptors.map (·.1)
  return ((List.range (used.length + 1)).find? (!used.contains ·)).getD 0

/-- The descriptor that a path names, if it is one of those that stand for them. -/
def namedDescriptor? (path : String) : Option Nat :=
  match path with
  | "/dev/stdin" => some 0
  | "/dev/stdout" => some 1
  | "/dev/stderr" => some 2
  | path =>
    if path.startsWith "/dev/fd/" then (path.drop 8).toNat?
    else if path.startsWith "/proc/self/fd/" then (path.drop 14).toNat?
    else none

def openFile (mode : Mode) (path : String) : Run (Except FileError Nat) := do
  match namedDescriptor? path with
  | some n =>
    match ← descriptor? n with
    | none => return .error .missing
    | some o =>
      match (← machine).opened[o]? with
      | some f =>
        match f.target with
        | .file place =>
          let fileMode ← newMode
          onMachine fun m => m.openPlace mode place fileMode
        | _ => return .ok o
      | none => return .error .missing
  | none =>
    let place ← here
    let fileMode ← newMode
    onMachine fun m => m.openPath place mode (pathText path) fileMode

def pipeCapacity : Nat := 65536

/-- Reads from an open file a first part of what is there; from a pipe that is empty only when
something has been written to it or nobody can do so any more. -/
def readOpened (o : Nat) (cut : List UInt8 → List UInt8) : Run (Except FileError (List Char)) := do
  match (← machine).opened[o]? with
  | some ⟨.pipe store, _, true, _, _⟩ =>
    if ((← machine).stores.getD store {}).size == 0 then pause (.readable store)
  | _ => pure ()
  match ← onMachine fun m => m.readOpen o cut with
  | .ok bytes => return .ok (Byte.chars bytes)
  | .error e => return .error e

def readSome (n most : Nat) : Run (Except FileError (List Char)) := do
  match ← descriptor? n with
  | none => return .error .badDescriptor
  | some o => readOpened o (·.take most)

def throughBreak : List UInt8 → List UInt8
  | [] => []
  | b :: rest => if b = 10 then [b] else b :: throughBreak rest

/-- Reads a line with its line break, which the last one may lack. -/
def readLine (n : Nat) : Run (Except FileError (List Char)) := do
  match ← descriptor? n with
  | none => return .error .badDescriptor
  | some o =>
    let rec go : Nat → List Char → Run (Except FileError (List Char))
      | 0, done => return .ok done
      | fuel + 1, done => do
        match ← readOpened o throughBreak with
        | .error e => return .error e
        | .ok [] => return .ok done
        | .ok cs => if cs.getLast? == some '\n' then return .ok (done ++ cs) else go fuel (done ++ cs)
    go maxRepeats []

def readAllOpened (o : Nat) : Run (Except FileError (List Char)) := do
  let rec go : Nat → List (List Char) → Run (Except FileError (List Char))
    | 0, done => return .ok done.reverse.flatten
    | fuel + 1, done => do
      match ← readOpened o id with
      | .error e => return .error e
      | .ok [] => return .ok done.reverse.flatten
      | .ok cs => go fuel (cs :: done)
  match (← machine).opened[o]? with
  | some ⟨.device .null, _, true, _, _⟩ => return .ok []
  | some ⟨.device _, _, true, _, _⟩ =>
    pause .never
    return .ok []
  | _ => go maxRepeats []

def readAll (n : Nat) : Run (Except FileError (List Char)) := do
  match ← descriptor? n with
  | none => return .error .badDescriptor
  | some o => readAllOpened o

def isIgnored (signal : Nat) : Run Bool := do return (← process).ignored.contains signal

/-- Writes to a descriptor. A process that writes to a pipe which nobody reads is ended by that. -/
def writeTo (n : Nat) (cs : List Char) : Run (Except FileError Unit) := do
  match ← descriptor? n with
  | none => return if cs.isEmpty then .ok () else .error .badDescriptor
  | some o =>
    match (← machine).opened[o]? with
    | some ⟨.pipe store, _, _, true, _⟩ =>
      let full : Run Bool := do
        return decide (pipeCapacity ≤ ((← machine).stores.getD store {}).size)
      if ← full then
        pause (.writable store)
        if ← full then
          if ← isIgnored Machine.signalPipe then return .error .brokenPipe
          else stop (.killed Machine.signalPipe)
    | _ => pure ()
    onMachine fun m => m.writeOpen o (Byte.bytes cs)

def emit (n : Nat) (text : String) : Run Unit := do
  let _ ← writeTo n text.toList

def printError (text : String) : Run Unit := emit 2 text

/-! Variables. -/

def valueOf? (name : String) : Run (Option String) := do
  return (SortedMap.find? name (← process).bindings).bind (·.value)

def prefaceOf (p : Process) : String :=
  p.name ++ ": " ++ Nat.repr p.line ++ ": " ++
    match p.builtin with
    | some name => name ++ ": "
    | none => ""

def warn (message : String) : Run Unit := do
  printError (prefaceOf (← process) ++ message ++ "\n")

def faultStatus : Nat := 2

/-- Says something about an error and stops at it. -/
def fail {α : Type} (message : String) : Run α := do
  warn message
  setStatus faultStatus
  stop .fault

/-- Changes a variable, which may be a new one. -/
def changeVariable (name : String) (f : Variable → Variable) : Run Unit :=
  updateProcess fun p =>
    let old := (SortedMap.find? name p.bindings).getD {}
    { p with bindings := SortedMap.insert name (f old) p.bindings }

def isFixed (p : Process) (name : String) : Bool :=
  ((SortedMap.find? name p.bindings).map (·.fixed)).getD false

def setVariable (name value : String) : Run Unit := do
  let p ← process
  if isFixed p name then fail (name ++ ": is read only")
  else
    let all := p.options.contains 'a'
    changeVariable name fun v => { v with value := some value, exported := v.exported || all }

def unsetVariable (name : String) : Run Unit := do
  let p ← process
  if isFixed p name then fail (name ++ ": is read only")
  else updateProcess fun p => { p with bindings := p.bindings.filter (·.1 != name) }

/-- Keeps what a variable is, to be had back when the innermost call ends. -/
def keepVariable (name : String) : Run Unit :=
  updateProcess fun p =>
    match p.locals with
    | [] => p
    | kept :: rest =>
      if kept.any (·.1 == name) then p
      else { p with locals := ((name, SortedMap.find? name p.bindings) :: kept) :: rest }

def environmentOf (p : Process) : List (String × String) :=
  p.bindings.filterMap fun (name, v) =>
    if v.exported then v.value.map (name, ·) else none

def hasOption (letter : Char) : Run Bool := do
  return (← process).options.contains letter

/-! Time and other processes. -/

def pass (ms : Nat) : Run Unit := do
  pause (.time ((← machine).clock + ms))

/-- So many steps are taken in a millisecond. -/
def stepsPerTick : Nat := 100

/-- Counts a step. Time passes by steps too, and other processes get their turn. -/
def count : Run Unit := do
  let m ← machine
  match m.budget with
  | 0 => pause .never
  | n + 1 =>
    updateMachine fun m => { m with budget := n }
    if n % stepsPerTick == 0 then pass 1

/-- Makes a process. It has what its maker has, and `f` says what is different. -/
def fork (body : Body) (f : Process → Process) : Run Nat := do
  let m ← machine
  let number := m.nextProcess
  let place := m.here (← process).number
  let child := f { (← process) with number := number, parent := (← process).number }
  modify fun s => { s with
    machine := { s.machine.setHere number place with
      nextProcess := number + 1
      running := number :: s.machine.running }
    started := s.started ++ [⟨child, body⟩] }
  return number

def ending? (number : Nat) : Run (Option Ending) := do
  return ((← machine).ended.find? (·.1 == number)).map (·.2)

def await (number : Nat) : Run Ending := do
  if (← ending? number).isNone then pause (.child number)
  return (← ending? number).getD (.exited 0)

/-- Becomes another program, which is given by its name and called with words. -/
def replace {α : Type} (program : String) (words : List String) : Run α :=
  stop (.replaced program words)

end SpecUpgrade.Shell.Run
