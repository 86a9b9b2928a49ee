import SpecUpgrade.FileTree.Resolve

/-!
What stands below a directory, and what a project leaves out: version control, state, caches and
installed packages.
-/

namespace SpecUpgrade

def excludedNames : List String := [".git", ".respec", "tmp", "log", "coverage", "node_modules"]

/-- Names in a row that are left out wherever they stand. -/
def excludedRows : List (List String) := [["vendor", "bundle"]]

def hasRow (row : List String) : Location → Bool
  | [] => row.isEmpty
  | name :: rest => row.isPrefixOf (name :: rest) || hasRow row rest

def isExcluded (place : Location) : Bool :=
  place.any (excludedNames.contains ·) || excludedRows.any (hasRow · place)

namespace FileTree

mutual

/-- Everything from a place on that is not left out, each with its place. What stands below
something that is left out is not looked at, and links are not followed. -/
def walk (leaveOut : Location → Bool) (place : Location) : FileTree → List (Location × FileTree)
  | .file content mode => if leaveOut place then [] else [(place, .file content mode)]
  | .link target => if leaveOut place then [] else [(place, .link target)]
  | .device kind => if leaveOut place then [] else [(place, .device kind)]
  | .dir entries =>
    if leaveOut place then [] else (place, .dir entries) :: walkAll leaveOut place entries

def walkAll (leaveOut : Location → Bool) (place : Location) :
    List (String × FileTree) → List (Location × FileTree)
  | [] => []
  | (name, t) :: rest => walk leaveOut (place ++ [name]) t ++ walkAll leaveOut place rest

end

/-- The places of all files below the root. -/
def files (t : FileTree) : List (Location × List UInt8) :=
  (walk (fun _ => false) [] t).filterMap fun
    | (place, .file content _) => some (place, content)
    | _ => none

end FileTree
end SpecUpgrade
