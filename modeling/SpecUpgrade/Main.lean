import SpecUpgrade.CommandLine.Run
import SpecUpgrade.Shell.Launch

/-!
The program. It reads the files of a project into memory and writes back what a call changes; what a
call does is `CommandLine.run`. Commands are run in memory too.
-/

namespace SpecUpgrade.CommandLine

def placeOf (path : String) : Location := (pathNames path).filter (· != "")

/-- A file by its content. One that names its interpreter may be run. -/
def fileOf (content : List UInt8) : FileTree :=
  .file content (if (Shell.interpreter? content).isSome then FileTree.programMode
    else FileTree.plainMode)

mutual

/-- Reads everything below a directory. -/
partial def readDirectory (path : String) : IO FileTree := do
  let entries ← (← IO.FS.realPath path).readDir
  let below ← entries.toList.mapM fun entry => return (entry.fileName, ← readEntry entry)
  return .dir (SortedMap.ofList below)

/-- Reads an entry of a directory. A link is read as a link to the place that it leads to, or to
itself when it leads nowhere. -/
partial def readEntry (entry : IO.FS.DirEntry) : IO FileTree := do
  match (← entry.path.symlinkMetadata).type with
  | .dir => readDirectory entry.path.toString
  | .symlink =>
    try return .link (← IO.FS.realPath entry.path).toString
    catch _ => return .link entry.fileName
  | .file => return fileOf (← IO.FS.readBinFile entry.path).toList
  | .other => return .file [] FileTree.plainMode

end

/-- Adds what stands at a path to the files in memory; a path that leads nowhere adds nothing. -/
def addPath (files : FileTree) (path : String) : IO FileTree := do
  try
    let real ← IO.FS.realPath path
    let tree ← if ← real.isDir then readDirectory path
      else return fileOf (← IO.FS.readBinFile path).toList
    return .set tree files (placeOf real.toString)
  catch _ => return files

/-- Writes the files that are new or have changed, and removes those that are gone. -/
def store (before after : FileTree) : IO Unit := do
  for (place, content) in after.files do
    match before.get? place with
    | some (.file old _) => if old != content then IO.FS.writeBinFile place.path ⟨content.toArray⟩
    | _ =>
      IO.FS.createDirAll (Location.path place.dropLast)
      IO.FS.writeBinFile place.path ⟨content.toArray⟩
  for (place, _) in before.files do
    if (after.get? place).isNone then IO.FS.removeFile place.path

end SpecUpgrade.CommandLine

open SpecUpgrade in
def main (arguments : List String) : IO UInt32 := do
  let here := (← IO.currentDir).toString
  let files ← match CommandLine.read arguments with
    | .ok g => CommandLine.addPath (.dir []) ((g.value? "--project").getD here)
    | .error _ => pure (.dir [])
  let host : Host := ⟨Shell.runner, CommandLine.placeOf here, ["tmp"]⟩
  let result := CommandLine.run host files arguments
  CommandLine.store files result.files
  IO.print result.stdout
  return UInt32.ofNat result.exit
