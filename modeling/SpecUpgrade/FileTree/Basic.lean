import SpecUpgrade.SortedMap
import SpecUpgrade.Text.Utf8

/-!
Files in memory. A tree of files is a directory; a place in it is the list of names that lead there
from the root.
-/

namespace SpecUpgrade

/-- The names that lead from the root to a place. -/
abbrev Location := List String

def Location.path (place : Location) : String := "/" ++ String.intercalate "/" place

/-- A file that keeps nothing: reading it gives nothing or zeros, and writing it has no effect or no
room. -/
inductive Device where
  | null
  | zero
  | full
  deriving DecidableEq, Repr

/-- The mode of a file holds its permissions, three bits each for the owner, the group and others. -/
inductive FileTree where
  | file (content : List UInt8) (mode : Nat)
  | link (target : String)
  | dir (entries : List (String × FileTree))
  | device (kind : Device)
  deriving Inhabited, Repr

inductive FileError where
  | missing
  | notDirectory
  | isDirectory
  | alreadyThere
  | notEmpty
  | tooManyLinks
  | nameTooLong
  | nulInName
  | nulInArgument
  | denied
  | invalid
  | badDescriptor
  | noSpace
  | brokenPipe
  | notExecutable
  | notText
  deriving DecidableEq, Repr

namespace FileError

def reason : FileError → String
  | missing => "No such file or directory"
  | notDirectory => "Not a directory"
  | isDirectory => "Is a directory"
  | alreadyThere => "File exists"
  | notEmpty => "Directory not empty"
  | tooManyLinks => "Too many levels of symbolic links"
  | nameTooLong => "File name too long"
  | nulInName => "file name contained an unexpected NUL byte"
  | nulInArgument => "nul byte found in provided data"
  | denied => "Permission denied"
  | invalid => "Invalid argument"
  | badDescriptor => "Bad file descriptor"
  | noSpace => "No space left on device"
  | brokenPipe => "Broken pipe"
  | notExecutable => "Exec format error"
  | notText => "stream did not contain valid UTF-8"

def number? : FileError → Option Nat
  | missing => some 2
  | notExecutable => some 8
  | badDescriptor => some 9
  | denied => some 13
  | alreadyThere => some 17
  | notDirectory => some 20
  | isDirectory => some 21
  | invalid => some 22
  | noSpace => some 28
  | brokenPipe => some 32
  | nameTooLong => some 36
  | notEmpty => some 39
  | tooManyLinks => some 40
  | nulInName => none
  | nulInArgument => none
  | notText => none

def message (e : FileError) : String :=
  match e.number? with
  | some n => e.reason ++ " (os error " ++ Nat.repr n ++ ")"
  | none => e.reason

end FileError

namespace FileTree

def plainMode : Nat := 0o644

def programMode : Nat := 0o755

/-- Someone may run a file of this mode. -/
def allowsRunning (mode : Nat) : Bool := mode % 2 == 1 || mode / 8 % 2 == 1 || mode / 64 % 2 == 1

def isDir : FileTree → Bool
  | dir _ => true
  | _ => false

def isFile : FileTree → Bool
  | file _ _ => true
  | _ => false

def isLink : FileTree → Bool
  | link _ => true
  | _ => false

def isRunnable : FileTree → Bool
  | file _ mode => allowsRunning mode
  | _ => false

def ofText (text : String) : FileTree := .file (Utf8.encode text) plainMode

/-- What stands at a place; links are not followed. -/
def get? : FileTree → Location → Option FileTree
  | t, [] => some t
  | .dir entries, name :: rest =>
    match SortedMap.find? name entries with
    | some t => t.get? rest
    | none => none
  | _, _ :: _ => none

/-- Puts something at a place, and directories on the way where there is nothing. Nothing is put
below what is no directory. -/
def set (new : FileTree) : FileTree → Location → FileTree
  | _, [] => new
  | .dir entries, name :: rest =>
    let below := (SortedMap.find? name entries).getD (.dir [])
    .dir (SortedMap.insert name (set new below rest) entries)
  | t, _ :: _ => t

def erase : FileTree → Location → FileTree
  | t, [] => t
  | .dir entries, [name] => .dir (entries.filter (·.1 != name))
  | .dir entries, name :: rest =>
    match SortedMap.find? name entries with
    | some below => .dir (SortedMap.insert name (below.erase rest) entries)
    | none => .dir entries
  | t, _ :: _ => t

/-- The content of the file at a place; links are not followed. -/
def bytesAt (t : FileTree) (place : Location) : Except FileError (List UInt8) :=
  match t.get? place with
  | some (.file content _) => .ok content
  | some (.device _) => .ok []
  | some (.dir _) => .error .isDirectory
  | some (.link _) => .error .tooManyLinks
  | none => .error .missing

def writeAt (t : FileTree) (place : Location) (content : List UInt8) : FileTree :=
  match t.get? place with
  | some (.file _ mode) => set (.file content mode) t place
  | some (.device _) => t
  | _ => set (.file content plainMode) t place

end FileTree
end SpecUpgrade
