import SpecUpgrade.Shell.Builtin.Processes
import SpecUpgrade.Utility.Basic
import SpecUpgrade.Utility.FileTest
import SpecUpgrade.Utility.Format

/-!
Small programs: texts, conditions, the working directory and signals.
-/

namespace SpecUpgrade.Utility

open Shell

def succeed : Program := fun _ => return 0

def decline : Program := fun _ => return 1

def isEchoOption (word : String) : Bool :=
  match word.toList with
  | '-' :: c :: rest => (c :: rest).all fun c => c == 'n' || c == 'e' || c == 'E'
  | _ => false

/-- Prints its arguments with blanks between them. -/
def echo : Program := fun words => do
  let arguments := words.drop 1
  let given := arguments.takeWhile isEchoOption
  let letters := given.flatMap fun w => w.toList.drop 1
  let rest := arguments.drop given.length
  let reads := (letters.filter fun c => c == 'e' || c == 'E').getLast? == some 'e'
  let text := (String.intercalate " " rest).toList
  let (cs, ended) := if reads then unescapeAll text else (text, false)
  putStatus (words.headD "") (if ended || letters.contains 'n' then cs else cs ++ ['\n'])

def printf : Program := fun words => do
  let name := words.headD ""
  let arguments := match words.drop 1 with
    | "--" :: rest => rest
    | arguments => arguments
  match arguments with
  | [] => misuse name "missing operand" 1
  | format :: rest =>
    let p := printFormat programDialect format rest
    for w in p.warnings do
      complain name w
    let status ← putStatus name p.out.reverse
    match p.failure with
    | some message =>
      complain name message
      return 1
    | none => return if p.warnings.isEmpty then status else 1

def testWords (name : String) (arguments : List String) : Run Nat := do
  match Condition.eval Condition.programDialect (← knowledge) 4 arguments with
  | .ok b => return if b then 0 else 1
  | .error message =>
    complain name message
    return 2

def test : Program := fun words => testWords (words.headD "") (words.drop 1)

/-- Tests a condition that stands between brackets. -/
def bracket : Program := fun words =>
  match (words.drop 1).reverse with
  | "]" :: rest => testWords (words.headD "") rest.reverse
  | _ => do
    complain (words.headD "") "missing ']'"
    return 2

def pwd : Program := fun words =>
  withOptions ⟨"LP", [("logical", 'L'), ("physical", 'P')], true, 1⟩ words fun name g => do
  let place ← Run.here
  if Machine.isLost place then
    complain name "couldn't find directory entry in '..' with matching i-node"
    return 1
  else
    let path := Byte.spread place.path
    let shown ← match g.last? ['L', 'P'], ← Run.valueOf? "PWD" with
      | some 'L', some given =>
        match ← Run.look given with
        | .ok (found, _) => pure (if found == place && isAbsolute given then given else path)
        | .error _ => pure path
      | _, _ => pure path
    putStatus name (shown ++ "\n").toList

def kill : Program := fun words => do
  let name := words.headD ""
  let (signal, targets) := match words.drop 1 with
    | "-s" :: s :: rest => (Builtin.signal? s, rest)
    | w :: rest =>
      match w.toList with
      | '-' :: '-' :: [] => (some Machine.signalTerminate, rest)
      | '-' :: s => (Builtin.signal? (String.ofList s), rest)
      | _ => (some Machine.signalTerminate, w :: rest)
    | [] => (some Machine.signalTerminate, [])
  match signal with
  | none =>
    complain name "unknown signal"
    return 1
  | some signal =>
    let mut status := 0
    for t in targets do
      match t.toNat? with
      | none =>
        complain name ("failed to parse argument: '" ++ t ++ "'")
        status := 1
      | some n =>
        if !(← Builtin.sendSignal signal n) then
          complain name ("sending signal to " ++ t ++ " failed: No such process")
          status := 1
    Run.pause .soon
    return status

end SpecUpgrade.Utility
