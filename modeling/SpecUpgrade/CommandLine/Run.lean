import SpecUpgrade.CommandLine.Arguments
import SpecUpgrade.Project.Convert
import SpecUpgrade.Report.Written

/-!
A call of the program: what it prints, how it exits and the files it leaves. Results and failures
are both printed as JSON.
-/

namespace SpecUpgrade.CommandLine

def versionText : String := "respec 0.1.0\n"

structure Result where
  exit : Nat
  stdout : String
  files : FileTree

def splitWords (text : String) : List String :=
  ((text.toList.splitBy fun a b => Text.isBlank a == Text.isBlank b).filter
    fun cs => !cs.any Text.isBlank).map String.ofList

/-- The rules of a list with commas. Blanks and empty names do not count. -/
def readRules (list : String) : Except Failure (List Rule) :=
  match Rule.ofNames (((list.splitOn ",").map Text.trim).filter (· != "")) with
  | .error name => .error (Rule.unknownFailure name)
  | .ok [] => .error (.invalidArguments "--rules needs at least one rule")
  | .ok rules => .ok rules

def readOverrides (g : Given) : Except Failure Overrides := do
  let rules ← match g.value? "--rules" with
    | some list => (readRules list).map some
    | none => .ok none
  return {
    noDynamic := g.has "--no-dynamic"
    analysisCommand := (g.value? "--analysis-command").map splitWords
    timeoutSecs := (g.value? "--timeout").bind fun s => Identity.word? s.toList
    keepSandbox := g.has "--keep-sandbox"
    rules := rules }

/-- Where dumps come from in a call; a command makes them unless stored ones are asked for. -/
def dumpSource (host : Host) (files : FileTree) (settings : Settings) (g : Given) :
    Except Failure Project.DumpSource :=
  if g.value? "--ast-source" = some "dump-file" then .ok .stored
  else
    match Project.DumpSource.ofCommand host files settings.parser.command with
    | .ok d => .ok d
    | .error e => .error e.failure

def callSettings (host : Host) (files : FileTree) (root : String) (g : Given) :
    Except Failure Settings := do
  let overrides ← readOverrides g
  match Settings.load files host.here root with
  | .error e => .error e.failure
  | .ok settings =>
    match settings.override overrides with
    | .error e => .error e.failure
    | .ok settings => .ok settings

def convert (host : Host) (files : FileTree) (g : Given) : Except Failure Report × FileTree :=
  let root := (g.value? "--project").getD host.here.path
  let prepared : Except Failure (Settings × Project.DumpSource) := do
    let settings ← callSettings host files root g
    return (settings, ← dumpSource host files settings g)
  match prepared with
  | .error e => (.error e, files)
  | .ok (settings, d) =>
    Project.convert host settings d ⟨root, g.operands, g.has "--dry-run"⟩ files

/-- Runs a call of the program. Wrong usage prints nothing. -/
def run (host : Host) (files : FileTree) (arguments : List String) : Result :=
  match read arguments with
  | .error .version => ⟨0, versionText, files⟩
  | .error .help => ⟨0, "", files⟩
  | .error .wrongUsage => ⟨2, "", files⟩
  | .ok g =>
    match convert host files g with
    | (.ok report, files) => ⟨0, report.page, files⟩
    | (.error e, files) => ⟨e.code, e.report.page, files⟩

end SpecUpgrade.CommandLine
