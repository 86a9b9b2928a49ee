import SpecUpgrade.Shell.Run
import SpecUpgrade.Utility.Condition

/-!
What conditions ask about files.
-/

namespace SpecUpgrade.Utility

open Shell

def hasContent : FileTree → Bool
  | .file content _ => !content.isEmpty
  | .dir _ => true
  | _ => false

/-- What a letter asks about a path. Who runs programs here may read and write everything. -/
def fileTest (letter : Char) (path : String) : Run Bool := do
  match letter with
  | 'h' | 'L' =>
    match ← Run.lookEntry path with
    | .ok (_, found) => return found.isLink
    | .error _ => return false
  | 't' => return false
  | letter =>
    match ← Run.look path with
    | .error _ =>
      match Run.namedDescriptor? path with
      | some n =>
        return (letter == 'e' || letter == 'r' || letter == 'w') && (← Run.descriptor? n).isSome
      | none => return false
    | .ok (_, found) =>
      match letter with
      | 'f' => return found.isFile
      | 'd' => return found.isDir
      | 's' => return hasContent found
      | 'x' => return found.isDir || found.isRunnable
      | 'c' =>
        match found with
        | .device _ => return true
        | _ => return false
      | 'b' | 'p' | 'S' | 'u' | 'g' | 'k' => return false
      | _ => return true

/-- What a word asks about two paths. All files count as equally old. -/
def fileCompare (word a b : String) : Run Bool := do
  match ← Run.look a, ← Run.look b with
  | .ok (p, _), .ok (q, _) => return word == "-ef" && p == q
  | .ok _, .error _ => return word == "-nt"
  | .error _, .ok _ => return word == "-ot"
  | _, _ => return false

def knowledge : Run Condition.Knowledge := do
  let s ← get
  let answer (r : Run Bool) : Bool := match r s with
    | .done (.ok b) _ => b
    | _ => false
  return ⟨fun c path => answer (fileTest c path), fun w a b => answer (fileCompare w a b)⟩

end SpecUpgrade.Utility
