import SpecUpgrade.Digest.Sha256
import SpecUpgrade.Dump
import SpecUpgrade.Failure
import SpecUpgrade.Project.DumpScript
import SpecUpgrade.Sandbox.Runner
import SpecUpgrade.Text.Blank

/-!
Source files and their trees. The dump of a source is stored beside it or made by a command.
-/

namespace SpecUpgrade.Project

/-- A source as it was read, with its path from the root of the project and the digest of its
content. -/
structure Source where
  path : String
  place : Location
  content : String
  digest : List UInt8

def pathFrom (root place : Location) : String :=
  String.intercalate "/" (place.drop root.length)

inductive DumpSource where
  | stored
  | command (program : String) (arguments : List String)
  deriving DecidableEq, Repr

namespace DumpSource

/-- What the name of a stored dump ends in. -/
def extension : String := "sexp"

def scriptName : String := "respec_ast_dump.rb"

def scriptDirectory : String := "respec_parser_"

/-- Dumps made by a command, which must be there. -/
def ofCommand (host : Host) (files : FileTree) : List String → Except TreeError DumpSource
  | [] => .error (.producer "parser command is empty")
  | program :: arguments =>
    match host.runner.locate? files host.here program with
    | some found =>
      match host.freshPlace files scriptDirectory with
      | .ok _ => .ok (.command found arguments)
      | .error e => .error (.producer ("cannot create temp dir: " ++ e.message))
    | none =>
      .error (.producer
        ("cannot find parser command '" ++ program ++ "': cannot find binary path"))

/-- The dump that a command prints for a file. The command is given the script and the file. -/
def printed (host : Host) (files : FileTree) (program : String) (arguments : List String)
    (file : String) : Except TreeError String × FileTree :=
  match host.freshPlace files scriptDirectory with
  | .error e => (.error (.producer ("cannot create temp dir: " ++ e.message)), files)
  | .ok home =>
    let script := home ++ [scriptName]
    match host.runner.start ⟨FileTree.set (.ofText dumpScript) files script, host.here, [],
      program, arguments ++ [Location.path script, file], none, .captured⟩ with
    | .error e => (.error (.producer ("cannot run " ++ program ++ ": " ++ e.message)), files)
    | .ok f =>
      let files := f.files.erase home
      if f.status ≠ some 0 then (.error (.producer (Text.trim (Utf8.lossy f.stderr))), files)
      else
        match Utf8.text? f.stdout with
        | some dump => (.ok dump, files)
        | none => (.error (.producer "AST dump is not valid UTF-8"), files)

def dump (d : DumpSource) (host : Host) (files : FileTree) (source : Source) :
    Except TreeError String × FileTree :=
  match d with
  | stored =>
    let path := Location.path source.place ++ "." ++ extension
    match files.readText [] path with
    | .ok dump => (.ok dump, files)
    | .error e => (.error (.producer ("cannot read " ++ path ++ ": " ++ e.message)), files)
  | command program arguments =>
    printed host files program arguments (Location.path source.place)

def tree (d : DumpSource) (host : Host) (files : FileTree) (source : Source) :
    Except TreeError Tree × FileTree :=
  match d.dump host files source with
  | (.error e, files) => (.error e, files)
  | (.ok dump, files) => (Tree.ofDump source.path source.content dump, files)

end DumpSource

/-- A source with its tree, or why there is no tree. -/
inductive Loaded where
  | parsed (source : Source) (tree : Tree)
  | failed (path reason : String)

/-- Loads the source at a place. A file that cannot be read ends the run; one without a tree does
not. -/
def load (host : Host) (d : DumpSource) (root : Location) (files : FileTree) (place : Location) :
    Except Failure Loaded × FileTree :=
  match files.readBytes [] place.path with
  | .error _ => (.error (.fileNotFound place.path), files)
  | .ok bytes =>
    let path := pathFrom root place
    match Utf8.text? bytes with
    | none => (.ok (.failed path "file is not valid UTF-8"), files)
    | some content =>
      let source : Source := ⟨path, place, content, Digest.sha256 bytes⟩
      match d.tree host files source with
      | (.ok tree, files) => (.ok (.parsed source tree), files)
      | (.error e, files) => (.ok (.failed path e.message), files)

def loadAll (host : Host) (d : DumpSource) (root : Location) (files : FileTree) :
    List Location → Except Failure (List Loaded) × FileTree
  | [] => (.ok [], files)
  | place :: places =>
    match load host d root files place with
    | (.error e, files) => (.error e, files)
    | (.ok loaded, files) =>
      match loadAll host d root files places with
      | (.error e, files) => (.error e, files)
      | (.ok rest, files) => (.ok (loaded :: rest), files)

end SpecUpgrade.Project
