import SpecUpgrade.Shell.Builtin.Basic
import SpecUpgrade.Utility.FileTest
import SpecUpgrade.Utility.Format

/-!
Built-in commands that print texts and test conditions.
-/

namespace SpecUpgrade.Shell.Builtin

open Run

/-- Prints what a built-in command has to say; one that cannot do so says that instead. -/
def say (cs : List Char) : Run Nat := do
  match ← writeTo 1 cs with
  | .ok () => return 0
  | .error _ =>
    warn ((← process).builtin.getD "" ++ ": I/O error")
    return 1

def sayLine (text : String) : Run Nat := say (text ++ "\n").toList

def echo (arguments : List String) : Run Nat := do
  let (broken, arguments) := match arguments with
    | "-n" :: rest => (false, rest)
    | arguments => (true, arguments)
  let (cs, ended) := Utility.unescapeAll (String.intercalate " " arguments).toList
  say (if ended || !broken then cs else cs ++ ['\n'])

def printf (arguments : List String) : Run Nat := do
  let (_, arguments) ← options "" arguments
  match arguments with
  | [] => fail "usage: printf format [arg ...]"
  | format :: rest =>
    let p := Utility.printFormat Utility.shellDialect format rest
    for w in p.warnings do
      warn w
    let status ← say p.out.reverse
    match p.failure with
    | some message => fail message
    | none => return if p.warnings.isEmpty then status else 1

def test (arguments : List String) : Run Nat := do
  let k ← Utility.knowledge
  match Utility.Condition.eval Utility.Condition.shellDialect k 4 arguments with
  | .ok b => return if b then 0 else 1
  | .error message => fail message

/-- Tests a condition that stands between brackets. -/
def bracket (arguments : List String) : Run Nat :=
  match arguments.reverse with
  | "]" :: rest => test rest.reverse
  | _ => fail "missing ]"

end SpecUpgrade.Shell.Builtin
