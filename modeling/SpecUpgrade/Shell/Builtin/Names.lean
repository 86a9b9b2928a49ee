import SpecUpgrade.Shell.Builtin.Output
import SpecUpgrade.Shell.Grammar
import SpecUpgrade.Shell.Program

/-!
Built-in commands that tell what names stand for.
-/

namespace SpecUpgrade.Shell.Builtin

open Run

def plainNames : List String :=
  ["[", "cd", "chdir", "command", "echo", "false", "kill", "printf", "pwd", "read", "test", "true",
   "type", "umask", "wait"]

/-- Special built-in commands: those of the grammar, and the one that makes variables of a function. -/
def isSpecialName (name : String) : Bool := specialNames.contains name || name == "local"

/-- Tells what a name stands for, at length or not. -/
def describe (verbose : Bool) (name : String) : Run Nat := do
  let p ← process
  let tell (long short : String) : Run Nat := sayLine (if verbose then name ++ long else short)
  if keywords.contains name then tell " is a shell keyword" name
  else if p.functions.any (·.1 == name) then tell " is a shell function" name
  else if isSpecialName name then tell " is a special shell builtin" name
  else if plainNames.contains name then tell " is a shell builtin" name
  else
    let found ← if name.toList.contains '/' then
        match ← look name with
        | .ok _ => pure (some name)
        | .error _ => pure none
      else findProgram? (← searchPath) name
    match found with
    | some path => tell (" is " ++ path) path
    | none =>
      if verbose then
        let _ ← sayLine (name ++ ": not found")
      return 127

def type (arguments : List String) : Run Nat := do
  let mut status := 0
  for name in arguments do
    let s ← describe true name
    if s != 0 then status := s
  return status

end SpecUpgrade.Shell.Builtin
