import SpecUpgrade.FileTree.Basic

/-!
Paths and the places that they lead to. A path is followed name by name, through links, from the
root or from a directory that it is relative to.
-/

namespace SpecUpgrade

def maxLinks : Nat := 40

def maxName : Nat := 255

/-- A path has fewer bytes than this. -/
def maxPath : Nat := 4096

def isAbsolute (path : String) : Bool := path.startsWith "/"

/-- A path below another; an absolute one stands for itself. -/
def joinPath (base path : String) : String :=
  if isAbsolute path || base.isEmpty then path
  else if base.endsWith "/" then base ++ path
  else base ++ "/" ++ path

/-- The names in a path. An empty one stands for a doubled or outer slash. -/
def pathNames (path : String) : List String := (path.toList.splitOn '/').map String.ofList

/-- The names in a path that count: no empty ones, and none for the same directory. -/
def pathSteps (path : String) : List String :=
  (pathNames path).filter fun name => name != "" && name != "."

namespace FileTree

/-- A path leads somewhere only if it is not empty, not too long and without a zero byte. -/
def checkPath (path : String) : Except FileError Unit :=
  if path.toList.contains (Char.ofNat 0) then .error .nulInName
  else if path.isEmpty then .error .missing
  else if maxPath ≤ path.utf8ByteSize then .error .nameTooLong
  else .ok ()

/-- Follows names from a directory to a place without links. A name after a file leads nowhere, be
it empty. -/
def follow (t : FileTree) (links : Nat) (here : Location) (names : List String) :
    Except FileError Location :=
  match names with
  | [] => .ok here
  | name :: rest =>
    if name = "" ∨ name = "." then t.follow links here rest
    else if name = ".." then t.follow links here.dropLast rest
    else if maxName < name.utf8ByteSize then .error .nameTooLong
    else
      match t.get? (here ++ [name]) with
      | none => .error .missing
      | some (.dir _) => t.follow links (here ++ [name]) rest
      | some (.file _ _) => if rest = [] then .ok (here ++ [name]) else .error .notDirectory
      | some (.device _) => if rest = [] then .ok (here ++ [name]) else .error .notDirectory
      | some (.link target) =>
        match links with
        | 0 => .error .tooManyLinks
        | links + 1 =>
          t.follow links (if isAbsolute target then [] else here) (pathNames target ++ rest)
termination_by (links, names.length)

def startOf (here : Location) (path : String) : Location := if isAbsolute path then [] else here

/-- The place without links that a path leads to from a directory. -/
def canonical (t : FileTree) (here : Location) (path : String) : Except FileError Location := do
  checkPath path
  t.follow maxLinks (startOf here path) (pathNames path)

def hasPath (t : FileTree) (here : Location) (path : String) : Bool :=
  match t.canonical here path with
  | .ok _ => true
  | .error _ => false

/-- The directory that holds what a path names, and the name there. Slashes at the end do not count.
A path that ends in a step upwards or in none has no name. -/
def parentOf (t : FileTree) (here : Location) (path : String) :
    Except FileError (Location × Option String) := do
  checkPath path
  let names := ((pathNames path).reverse.dropWhile (· == "")).reverse
  let parent ← t.follow maxLinks (startOf here path) names.dropLast
  match t.get? parent with
  | some (.dir _) =>
    let name := names.getLastD ""
    if name = "" ∨ name = "." ∨ name = ".." then .ok (parent, none)
    else if maxName < name.utf8ByteSize then .error .nameTooLong
    else .ok (parent, some name)
  | some _ => .error .notDirectory
  | none => .error .missing

/-- The place that a path names. A link at its end is not followed, unless a slash comes after it. -/
def entryPlace (t : FileTree) (here : Location) (path : String) : Except FileError Location :=
  match t.parentOf here path with
  | .error e => .error e
  | .ok (parent, name) =>
    match name with
    | none => t.canonical here path
    | some name =>
      if path.endsWith "/" then t.canonical here path
      else if (t.get? (parent ++ [name])).isSome then .ok (parent ++ [name])
      else .error .missing

def readBytes (t : FileTree) (here : Location) (path : String) :
    Except FileError (List UInt8) := do
  t.bytesAt (← t.canonical here path)

def readText (t : FileTree) (here : Location) (path : String) : Except FileError String := do
  match Utf8.text? (← t.readBytes here path) with
  | some text => .ok text
  | none => .error .notText

/-- The place of a file that is to be written and may not exist yet, in a directory that does. What
a link leads to is written, be it there or not. -/
def filePlaceFrom (t : FileTree) : Nat → Location → String → Except FileError Location
  | links, here, path =>
    match t.parentOf here path with
    | .error e => .error e
    | .ok (_, none) => .error .isDirectory
    | .ok (parent, some name) =>
      if path.endsWith "/" then .error .isDirectory
      else
        match t.get? (parent ++ [name]), links with
        | some (.dir _), _ => .error .isDirectory
        | some (.link _), 0 => .error .tooManyLinks
        | some (.link target), links + 1 => t.filePlaceFrom links parent target
        | _, _ => .ok (parent ++ [name])

def filePlace (t : FileTree) (here : Location) (path : String) : Except FileError Location :=
  t.filePlaceFrom maxLinks here path

def writeBytes (t : FileTree) (here : Location) (path : String) (content : List UInt8) :
    Except FileError FileTree := do
  return t.writeAt (← t.filePlace here path) content

end FileTree
end SpecUpgrade
