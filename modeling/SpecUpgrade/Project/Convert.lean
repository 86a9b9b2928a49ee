import SpecUpgrade.Project.Selection
import SpecUpgrade.Project.Source
import SpecUpgrade.Report.Basic
import SpecUpgrade.Sandbox.Analysis
import SpecUpgrade.Settings.Written

/-!
The conversion of a project. All sources are loaded, the tests are run once for the facts about
them, every source is converted, and then those that have changed are written, unless a file is no
longer what was read.
-/

namespace SpecUpgrade

def settingsDirectory : String := ".respec"

def settingsFile : String := "config.toml"

/-- The settings of the project at a path, which are the defaults when there is no file for them. -/
def Settings.load (files : FileTree) (here : Location) (root : String) :
    Except SettingsError Settings :=
  let path := joinPath (joinPath root settingsDirectory) settingsFile
  if files.hasPath here path then
    match files.readText here path with
    | .ok text => Settings.ofText path text
    | .error e => .error (.unreadable path e.message)
  else .ok {}

namespace Project

/-- What is to be converted, given by paths from the root of the project, and whether it is only
tried. -/
structure Request where
  root : String
  paths : List String
  dryRun : Bool
  deriving DecidableEq, Repr

/-- Loads what is to be converted, and returns it with the place of the project. -/
def read (host : Host) (settings : Settings) (d : DumpSource) (request : Request)
    (files : FileTree) : Except Failure (Location × List Loaded) × FileTree :=
  match files.canonical host.here request.root with
  | .error _ => (.error (.fileNotFound request.root), files)
  | .ok root =>
    match select files root request.paths settings.convert.specSuffix with
    | .error e => (.error e, files)
    | .ok places =>
      match loadAll host d root files places with
      | (.error e, files) => (.error e, files)
      | (.ok loaded, files) => (.ok (root, loaded), files)

/-- What is asked about the sources that have a tree. -/
def units (rules : List Rule) : List Loaded → Except Failure (List ProbedSource)
  | [] => .ok []
  | .failed _ _ :: rest => units rules rest
  | .parsed _ tree :: rest =>
    match Probe.collect tree rules with
    | .error c => .error c.failure
    | .ok requests => (units rules rest).map (⟨tree, requests⟩ :: ·)

/-- The facts of a test run, if tests are to be run. -/
def gather (host : Host) (settings : Settings) (root : Location) (loaded : List Loaded)
    (files : FileTree) : Except Failure (Facts × FileTree) :=
  if settings.analysis.enabled then
    (units settings.convert.rules loaded).map
      (Analysis.run host files settings.analysis root.path)
  else .ok (.empty, files)

/-- The entry of a report for a source, and its new text if it has changed. -/
def convertOne (rules : List Rule) (facts : Facts) :
    Loaded → FileReport × Option (Source × String)
  | .failed path reason => (.ofParseError path reason, none)
  | .parsed source tree =>
    let c := tree.convert rules facts
    (.ofConversion source.path c, if c.changed then some (source, c.source) else none)

/-- Why a file may not be written: it cannot be read any more or holds something else. -/
def stale? (files : FileTree) (source : Source) : Option Failure :=
  match files.readBytes [] source.place.path with
  | .error e => some (.notApplied ("cannot re-read file: " ++ e.message) (some source.path))
  | .ok bytes =>
    if Digest.sha256 bytes = source.digest then none
    else some (.notApplied "file changed on disk since it was read" (some source.path))

/-- Writes texts in order, up to the first that cannot be written. -/
def writeEach (files : FileTree) : List (Source × String) → Except Failure Unit × FileTree
  | [] => (.ok (), files)
  | (source, text) :: writes =>
    match files.writeBytes [] source.place.path (Utf8.encode text) with
    | .error e =>
      (.error (.notApplied ("cannot write file: " ++ e.message) (some source.path)), files)
    | .ok files => writeEach files writes

/-- Writes all texts, or none when one of the files is stale. -/
def writeChanges (files : FileTree) (writes : List (Source × String)) :
    Except Failure Unit × FileTree :=
  match writes.findSome? (stale? files ·.1) with
  | some failure => (.error failure, files)
  | none => writeEach files writes

def finish (host : Host) (settings : Settings) (dryRun : Bool) (root : Location)
    (loaded : List Loaded) (files : FileTree) : Except Failure Report × FileTree :=
  match gather host settings root loaded files with
  | .error e => (.error e, files)
  | .ok (facts, files) =>
    let converted := loaded.map (convertOne settings.convert.rules facts)
    let report := Report.ofFiles (converted.map (·.1)) dryRun (!facts.isEmpty)
    if dryRun then (.ok report, files)
    else
      match writeChanges files (converted.filterMap (·.2)) with
      | (.error e, files) => (.error e, files)
      | (.ok (), files) => (.ok report, files)

def convert (host : Host) (settings : Settings) (d : DumpSource) (request : Request)
    (files : FileTree) : Except Failure Report × FileTree :=
  match read host settings d request files with
  | (.error e, files) => (.error e, files)
  | (.ok (root, loaded), files) => finish host settings request.dryRun root loaded files

end Project
end SpecUpgrade
