import SpecUpgrade.Json.Value

/-!
What came of a command: its exit status and how long it took, and where its output was kept. An
outcome is read from JSON member by member, so the first fault in the text is the one that counts.
-/

namespace SpecUpgrade

structure Duration where
  secs : Nat
  nanos : Nat
  deriving DecidableEq, Repr

namespace Duration

def nanosPerSec : Nat := 1000000000

def ofNanos (n : Nat) : Duration := ⟨n / nanosPerSec, n % nanosPerSec⟩

/-- The duration nearest to a number of seconds, given by the bits of its magnitude. There is none
for a number below zero or for two to the sixty-fourth seconds and more. -/
def ofSeconds? (negative : Bool) (bits : Nat) : Option Duration :=
  let (num, den) := Binary64.toRatio bits
  if negative ∧ bits ≠ 0 ∨ Word.bound64 * den ≤ num then none
  else some (ofNanos (Binary64.roundQuotient (num * nanosPerSec) den))

/-- The number of seconds: the whole seconds and the fraction are rounded, then their sum. -/
def toSeconds (d : Duration) : Nat :=
  Binary64.add (Binary64.ofRatio d.secs 1)
    (Binary64.div (Binary64.ofRatio d.nanos 1) (Binary64.ofRatio nanosPerSec 1))

end Duration

structure Outcome where
  success : Bool
  exitCode : Option Int
  timedOut : Bool
  duration : Duration
  command : List String
  stdoutLog : String
  stderrLog : String
  deriving DecidableEq, Repr

inductive OutcomeError where
  | unreadable
  | durationOutOfRange
  deriving DecidableEq, Repr

namespace Outcome

open Json (Form Number Piece)

structure Fields where
  success : Option Bool := none
  exitCode : Option (Option Int) := none
  timedOut : Option Bool := none
  duration : Option Duration := none
  command : Option (List String) := none
  stdoutLog : Option String := none
  stderrLog : Option String := none

def readable {α : Type} : Option α → Except OutcomeError α
  | some a => .ok a
  | none => .error .unreadable

def flag? : Form → Option Bool
  | .bool b => some b
  | _ => none

def text? : Form → Option String
  | .string pieces => Json.textOfPieces? pieces
  | _ => none

def texts? : Form → Option (List String)
  | .array items => items.mapM text?
  | _ => none

/-- An exit status of thirty-two bits, or none when a command was killed. -/
def exitCode? : Form → Option (Option Int)
  | .null => some none
  | .number n =>
    match Number.ofNumeral? n with
    | some (.int n) => if -(Word.half32 : Int) ≤ n ∧ n < Word.half32 then some (some n) else none
    | _ => none
  | _ => none

def magnitude : Number → Bool × Nat
  | .int n => (decide (n < 0), Binary64.ofRatio n.natAbs 1)
  | .float bits => (decide (Word.half64 ≤ bits.toNat), bits.toNat % Word.half64)

def readDuration : Form → Except OutcomeError Duration
  | .number n => do
    let (negative, bits) := magnitude (← readable (Number.ofNumeral? n))
    match Duration.ofSeconds? negative bits with
    | some d => .ok d
    | none => .error .durationOutOfRange
  | _ => .error .unreadable

def once {α : Type} (old : Option α) (new : Except OutcomeError α) :
    Except OutcomeError (Option α) :=
  match old with
  | some _ => .error .unreadable
  | none => new.map some

/-- Takes one member; others than the known fields are passed over. -/
def Fields.take (f : Fields) (key : String) (form : Form) : Except OutcomeError Fields :=
  match key with
  | "success" => do return { f with success := ← once f.success (readable (flag? form)) }
  | "exit_code" => do return { f with exitCode := ← once f.exitCode (readable (exitCode? form)) }
  | "timed_out" => do return { f with timedOut := ← once f.timedOut (readable (flag? form)) }
  | "duration" => do return { f with duration := ← once f.duration (readDuration form) }
  | "command" => do return { f with command := ← once f.command (readable (texts? form)) }
  | "stdout_log" => do return { f with stdoutLog := ← once f.stdoutLog (readable (text? form)) }
  | "stderr_log" => do return { f with stderrLog := ← once f.stderrLog (readable (text? form)) }
  | _ => .ok f

/-- The outcome of the fields; only the exit status may be missing. -/
def Fields.outcome? (f : Fields) : Option Outcome := do
  return ⟨← f.success, f.exitCode.getD none, ← f.timedOut, ← f.duration, ← f.command,
    ← f.stdoutLog, ← f.stderrLog⟩

def keys : List String :=
  ["success", "exit_code", "timed_out", "duration", "command", "stdout_log", "stderr_log"]

def readMembers : Nat → Fields → List Char → Except OutcomeError (Fields × List Char)
  | 0, _, _ => .error .unreadable
  | fuel + 1, f, cs =>
    match Json.skipBlank cs with
    | '"' :: rest => do
      let (pieces, rest) ← readable (Json.readPieces rest)
      let key ← readable (Json.textOfPieces? pieces)
      match Json.skipBlank rest with
      | ':' :: rest =>
        let (form, rest) ← readable (Json.readForm (2 * rest.length + 2) rest)
        let f ← f.take key form
        match Json.skipBlank rest with
        | ',' :: rest => readMembers fuel f rest
        | '\x7d' :: rest => .ok (f, rest)
        | _ => .error .unreadable
      | _ => .error .unreadable
    | _ => .error .unreadable

/-- Reads the items of a list, one for every key, up to its closing bracket. -/
def readItems : List String → Fields → List Char → Except OutcomeError (Fields × List Char)
  | [], _, _ => .error .unreadable
  | key :: keys, f, cs => do
    let (form, rest) ← readable (Json.readForm (2 * cs.length + 2) cs)
    let f ← f.take key form
    match Json.skipBlank rest, keys with
    | ']' :: rest, [] => .ok (f, rest)
    | ',' :: rest, keys => readItems keys f rest
    | _, _ => .error .unreadable

def readFields (text : String) : Except OutcomeError (Fields × List Char) :=
  match Json.skipBlank text.toList with
  | '\x7b' :: rest =>
    match Json.skipBlank rest with
    | '\x7d' :: rest => .ok ({}, rest)
    | rest => readMembers (rest.length + 1) {} rest
  | '[' :: rest => readItems keys {} rest
  | _ => .error .unreadable

def ofText (text : String) : Except OutcomeError Outcome := do
  let (f, rest) ← readFields text
  let outcome ← readable f.outcome?
  if (Json.skipBlank rest).isEmpty then .ok outcome else .error .unreadable

end Outcome
end SpecUpgrade
