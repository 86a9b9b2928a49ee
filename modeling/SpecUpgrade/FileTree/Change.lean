import SpecUpgrade.FileTree.Resolve

/-!
Changes of a tree of files. Each is for one path and leaves the tree as it is when it fails.
-/

namespace SpecUpgrade.FileTree

/-- Puts something new at a path, where nothing may be yet. -/
def place (new : FileTree) (t : FileTree) (here : Location) (path : String) :
    Except FileError FileTree :=
  match t.parentOf here path with
  | .error e => .error e
  | .ok (_, none) => .error .alreadyThere
  | .ok (parent, some name) =>
    if (t.get? (parent ++ [name])).isSome then .error .alreadyThere
    else .ok (set new t (parent ++ [name]))

def makeDir (t : FileTree) (here : Location) (path : String) : Except FileError FileTree :=
  place (.dir []) t here path

def makeLink (t : FileTree) (here : Location) (target path : String) : Except FileError FileTree :=
  if target.isEmpty then .error .missing
  else if path.endsWith "/" && !t.hasPath here path then .error .missing
  else place (.link target) t here path

def isDirAt (t : FileTree) (here : Location) (path : String) : Bool :=
  match t.canonical here path with
  | .ok place => ((t.get? place).map isDir).getD false
  | .error _ => false

/-- Makes the directory that steps lead to from another, and those on the way. What has been made
stays when a later step fails. -/
def makeDirs (t : FileTree) (here : Location) (base : String) (steps : List String) :
    Except FileError Unit × FileTree :=
  let path := joinPath base (String.intercalate "/" steps)
  match t.makeDir here path with
  | .ok t => (.ok (), t)
  | .error e =>
    if e = .missing ∧ steps ≠ [] then
      match t.makeDirs here base steps.dropLast with
      | (.error e, t) => (.error e, t)
      | (.ok (), t) =>
        match t.makeDir here path with
        | .ok t => (.ok (), t)
        | .error e => if t.isDirAt here path then (.ok (), t) else (.error e, t)
    else if t.isDirAt here path then (.ok (), t)
    else (.error e, t)
termination_by steps.length
decreasing_by
  rename_i h
  have := List.length_pos_iff.mpr h.2
  simp only [List.length_dropLast]
  omega

def removeFile (t : FileTree) (here : Location) (path : String) :
    Except FileError (FileTree × Location) := do
  let place ← t.entryPlace here path
  match t.get? place with
  | some (.dir _) => .error .isDirectory
  | _ => if path.endsWith "/" then .error .notDirectory else .ok (t.erase place, place)

def removeDir (t : FileTree) (here : Location) (path : String) :
    Except FileError (FileTree × Location) := do
  if (pathNames path).getLastD "" = "." then .error .invalid
  let place ← t.entryPlace here path
  match t.get? place with
  | some (.dir []) => .ok (t.erase place, place)
  | some (.dir _) => .error .notEmpty
  | _ => .error .notDirectory

/-- Gives what one path names the name of another. A file may take the place of a file, and a
directory that of an empty one. Returns the old place and the new one. -/
def rename (t : FileTree) (here : Location) (source target : String) :
    Except FileError (FileTree × Location × Location) := do
  let old ← t.entryPlace here source
  let (parent, name) ← t.parentOf here target
  match name, t.get? old with
  | some name, some moved =>
    let new := parent ++ [name]
    if old = new then .ok (t, old, new)
    else if old.isPrefixOf new then .error .invalid
    else
      match moved.isDir, t.get? new with
      | true, some (.dir (_ :: _)) => .error .notEmpty
      | true, some (.dir []) => .ok (set moved (t.erase old) new, old, new)
      | true, some _ => .error .notDirectory
      | false, some (.dir _) => .error .isDirectory
      | false, none =>
        if target.endsWith "/" then .error .notDirectory
        else .ok (set moved (t.erase old) new, old, new)
      | _, _ => .ok (set moved (t.erase old) new, old, new)
  | _, _ => .error .invalid

/-- Gives a file a mode. Directories have none of their own. -/
def setMode (t : FileTree) (here : Location) (path : String) (change : Bool → Nat → Nat) :
    Except FileError FileTree := do
  let place ← t.canonical here path
  match t.get? place with
  | some (.file content mode) => .ok (set (.file content (change false mode)) t place)
  | _ => .ok t

end SpecUpgrade.FileTree
