import SpecUpgrade.Failure
import SpecUpgrade.FileTree.Walk

/-!
Which files a run is about. A file may be named; a directory stands for the spec files below it.
-/

namespace SpecUpgrade.Project

/-- A strictly increasing list of the places. -/
def sortPlaces (places : List Location) : List Location :=
  (SortedMap.ofList (places.map (·, ()))).map (·.1)

/-- The files of a directory whose names end in `suffix`, without what a project leaves out. -/
def specFiles (root place : Location) (suffix : String) (t : FileTree) : List Location :=
  (t.walk isExcluded (place.drop root.length)).filterMap fun (found, t) =>
    if t.isFile && (found.getLastD "").endsWith suffix then some (root ++ found) else none

/-- The files that one path stands for: a file for itself, a directory for the spec files in it. -/
def selectOne (files : FileTree) (root : Location) (suffix path : String) :
    Except Failure (List Location) :=
  match files.canonical root path with
  | .error _ => .error (.fileNotFound path)
  | .ok place =>
    if !root.isPrefixOf place then
      .error (.invalidArguments
        (place.path ++ " is outside the project root " ++ Location.path root))
    else
      match files.get? place with
      | some (.file _ _) => .ok [place]
      | some t => .ok (specFiles root place suffix t)
      | none => .ok []

/-- The files that paths stand for, each once and in order; no path at all stands for the project.
Paths are relative to its root. -/
def select (files : FileTree) (root : Location) (paths : List String) (suffix : String) :
    Except Failure (List Location) := do
  let base := Location.path root
  let requested := if paths.isEmpty then [base] else paths.map (joinPath base)
  return sortPlaces (← requested.mapM (selectOne files root suffix)).flatten

end SpecUpgrade.Project
