import SpecUpgrade.Facts.Payload
import SpecUpgrade.Failure
import SpecUpgrade.Probe.Instrument
import SpecUpgrade.Sandbox.Basic
import SpecUpgrade.Sandbox.HelperScript
import SpecUpgrade.Settings.Basic

/-!
Facts from a test run. The sources with requests are instrumented in a sandbox, the tests are run
there once, and the run leaves its facts in a file.
-/

namespace SpecUpgrade

structure ProbedSource where
  tree : Tree
  requests : Probe.Requests

inductive AnalysisError where
  | sandbox (error : SandboxError)
  | timedOut (secs : Nat)
  | failed (exitCode : Option Int) (stderr : String)
  | missingPayload
  | malformedPayload (error : PayloadError)
  deriving DecidableEq, Repr

def AnalysisError.message : AnalysisError → String
  | sandbox error => error.message
  | timedOut secs => "test command timed out after " ++ Nat.repr secs ++ "s"
  | failed exitCode stderr =>
    let code := match exitCode with
      | some n => "Some(" ++ toString n ++ ")"
      | none => "None"
    "test command failed with exit code " ++ code ++ ": " ++ stderr
  | missingPayload => "test command wrote no runtime payload"
  | malformedPayload error => PayloadError.describe (error.reason?.getD "not a payload")

namespace Analysis

def outputVariable : String := "RESPEC_ANALYSIS_OUTPUT"

/-- The file that a run leaves its facts in. -/
def payloadName : String := "runtime_data.json"

/-- The script that a run loads before the tests. -/
def helperName : String := "respec_analysis_helper.rb"

/-- So much of what a failed run printed is reported. -/
def tailBytes : Nat := 2048

/-- Writes the instrumented source of every unit that something is asked about. -/
def instrumentAll (s : Sandbox) (files : FileTree) :
    List ProbedSource → Except SandboxError Unit × FileTree
  | [] => (.ok (), files)
  | u :: units =>
    if u.requests.isEmpty then instrumentAll s files units
    else
      match s.write files u.tree.path (Probe.instrument u.tree u.requests).source with
      | (.error e, files) => (.error e, files)
      | (.ok (), files) => instrumentAll s files units

def facts (s : Sandbox) (files : FileTree) (settings : AnalysisSettings) (o : Outcome) :
    Except AnalysisError Facts :=
  if o.timedOut then .error (.timedOut settings.timeoutSecs)
  else if !o.success then .error (.failed o.exitCode (o.errorTail files tailBytes))
  else
    match files.readText [] (s.notes ++ [payloadName]).path with
    | .error _ => .error .missingPayload
    | .ok text =>
      match Facts.load text with
      | .ok f => .ok f
      | .error e => .error (.malformedPayload e)

def runTests (host : Host) (s : Sandbox) (files : FileTree) (settings : AnalysisSettings)
    (units : List ProbedSource) : Except AnalysisError Facts × FileTree :=
  match instrumentAll s files units with
  | (.error e, files) => (.error (.sandbox e), files)
  | (.ok (), files) =>
    match files.writeBytes [] (s.notes ++ [helperName]).path (Utf8.encode helperScript) with
    | .error e => (.error (.sandbox (.io e)), files)
    | .ok files =>
      let s := s.setVariable "RUBYOPT" ("-r" ++ (s.notes ++ [helperName]).path)
      let s := s.setVariable outputVariable (s.notes ++ [payloadName]).path
      match s.run host files settings.command with
      | (.error e, files) => (.error (.sandbox e), files)
      | (.ok o, files) => (facts s files settings o, files)

/-- Runs the tests of a project for the facts, or tells why there are none. -/
def attempt (host : Host) (files : FileTree) (settings : AnalysisSettings) (root : String)
    (units : List ProbedSource) : Except AnalysisError Facts × FileTree :=
  match Sandbox.create host files root settings.keepSandbox (settings.timeoutSecs * 1000) [] with
  | .error e => (.error (.sandbox e), files)
  | .ok (s, files) =>
    let (result, files) := runTests host s files settings units
    (result, (s.dispose files (result matches .error _)).2)

/-- Runs the tests if anything is asked. When there are no facts to be had, nothing is known, which
is no failure. -/
def run (host : Host) (files : FileTree) (settings : AnalysisSettings) (root : String)
    (units : List ProbedSource) : Facts × FileTree :=
  if units.all (·.requests.isEmpty) then (.empty, files)
  else
    match attempt host files settings root units with
    | (.ok f, files) => (f, files)
    | (.error _, files) => (.empty, files)

end Analysis
end SpecUpgrade
