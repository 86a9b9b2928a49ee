import SpecUpgrade.Shell.FileNames

/-!
The output of commands as a text, and redirections of descriptors. What a descriptor led to before
is kept under a number that commands do not use, and can be had back from there.
-/

namespace SpecUpgrade.Shell.Run

open Machine (Mode)

/-- Numbers from here on are for the shell itself. -/
def firstSpare : Nat := 10

def spare : Run Nat := do
  let used := (← process).descriptors.map (·.1)
  return ((List.range (used.length + 1)).map (· + firstSpare)).find? (!used.contains ·) |>.getD
    firstSpare

/-- A process as a shell hands it on to a copy of itself: what is laid down for signals and the jobs
are the affair of the first. -/
def asSubshell (p : Process) : Process := { p with traps := [], pending := [], jobs := [] }

/-- Descriptors in which one leads elsewhere. -/
def leading (n opened : Nat) (descriptors : List (Nat × Nat)) : List (Nat × Nat) :=
  (n, opened) :: descriptors.filter (·.1 != n)

def tellEnding (e : Machine.Ending) : Run Unit := do
  match e with
  | .killed signal =>
    if signal != Machine.signalInterrupt && signal != Machine.signalPipe then
      printError (Machine.signalText signal ++ "\n")
  | .exited _ => return

def capture : Capture := fun body => do
  let (reader, writer) ← onMachine fun m => m.addPipe []
  let n ← spare
  let descriptors := (← process).descriptors
  setDescriptor n (some reader)
  let child ← fork (.command false body) fun p =>
    { asSubshell p with descriptors := leading 1 writer descriptors }
  let text ← readAllOpened reader
  setDescriptor n none
  let e ← await child
  tellEnding e
  updateProcess fun p => { p with outputStatus := some e.status }
  return String.ofList ((text.toOption.getD []).filter (· != Char.ofNat 0))

/-- What a redirection comes to when its words are expanded. -/
inductive Opening where
  | file (descriptor : Nat) (mode : Mode) (forced : Bool) (name : String)
  | copy (descriptor : Nat) (source : Option Nat)
  | text (descriptor : Nat) (content : String)

def Opening.descriptor : Opening → Nat
  | file d _ _ _ => d
  | copy d _ => d
  | text d _ => d

def prepare : Redirect → Run Opening
  | .file d mode forced target => do return .file d mode forced (← expandText capture target)
  | .duplicate d target => do
    match (← expandText capture target).toList with
    | ['-'] => return .copy d none
    | [c] =>
      if c.isDigit then return .copy d (some (c.toNat - '0'.toNat))
      else fail "Syntax error: Bad fd number"
    | _ => fail "Syntax error: Bad fd number"
  | .document d number => do
    return .text d (← expandDocument capture ((← process).documents.getD number []))

def openReason (mode : Mode) : FileError → String
  | .missing => if mode = .read then "No such file" else "Directory nonexistent"
  | .notDirectory => if mode = .read then "No such file" else "Directory nonexistent"
  | e => e.reason

def isGuarded (mode : Mode) (forced : Bool) (name : String) : Run Bool := do
  if mode = .write && !forced && (← hasOption 'C') then
    match ← look name with
    | .ok (_, found) => return found.isFile
    | .error _ => return false
  else return false

/-- Opens what a redirection leads to; none closes the descriptor. -/
def openTarget : Opening → Run (Except String (Option Nat))
  | .file _ mode forced name => do
    let wrong (e : FileError) : Except String (Option Nat) :=
      .error ((if mode = .read then "cannot open " else "cannot create ") ++ name ++ ": " ++
        openReason mode e)
    if ← isGuarded mode forced name then return wrong .alreadyThere
    else
      match ← openFile mode name with
      | .ok o => return .ok (some o)
      | .error e => return wrong e
  | .copy _ none => return .ok none
  | .copy _ (some n) => do
    match ← descriptor? n with
    | some o => return .ok (some o)
    | none => return .error (Nat.repr n ++ ": " ++ FileError.reason .badDescriptor)
  | .text _ content => do
    let (reader, _) ← onMachine fun m => m.addPipe (Byte.bytes content.toList)
    return .ok (some reader)

/-- Where descriptors were kept, last first; none for one that led nowhere. -/
abbrev Kept := List (Nat × Option Nat)

def keepDescriptor (kept : Kept) (d : Nat) : Run Kept := do
  if kept.any (·.1 == d) then return kept
  else
    match ← descriptor? d with
    | some o =>
      let n ← spare
      setDescriptor n (some o)
      return (d, some n) :: kept
    | none => return (d, none) :: kept

/-- Opens redirections one after the other, and returns what was kept and a message if one fails. -/
def redirect (keeps : Bool) : List Opening → Kept → Run (Kept × Option String)
  | [], kept => return (kept, none)
  | o :: rest, kept => do
    match ← openTarget o with
    | .error message => return (kept, some message)
    | .ok opened =>
      let kept ← if keeps then keepDescriptor kept o.descriptor else pure kept
      setDescriptor o.descriptor opened
      redirect keeps rest kept

/-- Has back what was kept. -/
def restore : Kept → Run Unit
  | [] => return
  | (d, none) :: rest => do
    setDescriptor d none
    restore rest
  | (d, some n) :: rest => do
    setDescriptor d (← descriptor? n)
    setDescriptor n none
    restore rest

def release (kept : Kept) : Run Unit := do
  for (_, n) in kept do
    match n with
    | some n => setDescriptor n none
    | none => pure ()

/-- Runs an action and then another, unless the process has become another program or has been
killed. -/
def unwinding {α : Type} (action : Run α) (after : Run Unit) : Run α := do
  match ← attempt action with
  | .ok a =>
    after
    return a
  | .error (.killed signal) => throw (.killed signal)
  | .error (.replaced name words) => throw (.replaced name words)
  | .error e =>
    after
    throw e

end SpecUpgrade.Shell.Run
