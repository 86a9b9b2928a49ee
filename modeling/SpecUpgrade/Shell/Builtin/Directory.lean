import SpecUpgrade.Shell.Builtin.Output
import SpecUpgrade.Utility.Mode

/-!
Built-in commands for the working directory and for the mode of new files.
-/

namespace SpecUpgrade.Shell.Builtin

open Run

/-- A path with its steps upwards taken in the text. -/
def logicalPath (current path : String) : String :=
  let start := if isAbsolute path then [] else pathSteps current
  let names := (pathSteps path).foldl (fun (names : List String) name =>
    if name == ".." then names.dropLast else names ++ [name]) start
  "/" ++ String.intercalate "/" names

/-- Goes to a directory that a path names; nothing happens if there is none. -/
def goTo (physical : Bool) (path : String) : Run Bool := do
  let p ← process
  let target := if physical then path else logicalPath p.directory path
  match ← look target with
  | .ok (place, .dir _) =>
    let name := if physical then Byte.spread place.path else target
    let old := p.directory
    updateMachine fun m => m.setHere p.number place
    updateProcess fun p => { p with directory := name }
    setVariable "OLDPWD" old
    setVariable "PWD" name
    changeVariable "OLDPWD" fun v => { v with exported := true }
    changeVariable "PWD" fun v => { v with exported := true }
    return true
  | _ => return false

def isFromHere (path : String) : Bool :=
  isAbsolute path || path == "." || path == ".." || path.startsWith "./" || path.startsWith "../"

def findDirectory? : List String → String → Run (Option (String × String))
  | [], _ => return none
  | directory :: rest, name => do
    let path := if directory == "" then name else directory ++ "/" ++ name
    match ← look path with
    | .ok (_, .dir _) => return some (directory, path)
    | _ => findDirectory? rest name

def cd (arguments : List String) : Run Nat := do
  let (letters, arguments) ← options "LP" arguments
  let physical := (letters.getLast?.map (·.1)) == some 'P'
  let (target, shown) ← match arguments with
    | [] => pure ((← valueOf? "HOME").getD "", false)
    | "-" :: _ => pure ((← valueOf? "OLDPWD").getD "", true)
    | target :: _ => pure (target, false)
  let named := if target == "" then "." else target
  let (path, shown) ← if isFromHere named then pure (named, shown)
    else do
      match ← findDirectory? (((← valueOf? "CDPATH").map (·.splitOn ":")).getD []) named with
      | some (directory, path) => pure (path, shown || directory != "")
      | none => pure (named, shown)
  if ← goTo physical path then
    if shown then sayLine (← process).directory else return 0
  else fail ("can't cd to " ++ target)

def pwd (arguments : List String) : Run Nat := do
  let (letters, _) ← options "LP" arguments
  if (letters.getLast?.map (·.1)) == some 'P' then sayLine (Byte.spread (← here).path)
  else sayLine (← process).directory

def octal (n : Nat) : String :=
  String.ofList ['0', Nat.digitChar (n / 64 % 8), Nat.digitChar (n / 8 % 8), Nat.digitChar (n % 8)]

def umask (arguments : List String) : Run Nat := do
  match arguments with
  | [] => sayLine (octal (← process).mask)
  | text :: _ =>
    match Utility.Mode.read? text with
    | some (.absolute n) =>
      updateProcess fun p => { p with mask := n % 512 }
      return 0
    | _ => fail ("Illegal number: " ++ text)

end SpecUpgrade.Shell.Builtin
