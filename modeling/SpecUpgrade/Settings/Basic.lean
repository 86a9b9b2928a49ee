import SpecUpgrade.Failure

/-!
Settings of a project, the defaults for what is not set, and what may be set for one run.
-/

namespace SpecUpgrade

/-- How tests are run to learn about the code: the command, run once, and its time limit. -/
structure AnalysisSettings where
  enabled : Bool := true
  command : List String := ["bundle", "exec", "rspec"]
  timeoutSecs : Nat := 600
  keepSandbox : Bool := false
  deriving DecidableEq, Repr

structure ParserSettings where
  command : List String := ["ruby"]
  deriving DecidableEq, Repr

structure ConvertSettings where
  rules : List Rule := Rule.all
  specSuffix : String := "_spec.rb"
  deriving DecidableEq, Repr

structure Settings where
  analysis : AnalysisSettings := {}
  parser : ParserSettings := {}
  convert : ConvertSettings := {}
  deriving DecidableEq, Repr

inductive SettingsError where
  | unreadable (path reason : String)
  | malformed (path reason : String)
  | invalid (reason : String)
  deriving DecidableEq, Repr

namespace SettingsError

def message : SettingsError → String
  | unreadable path reason => "failed to read config file " ++ path ++ ": " ++ reason
  | malformed path reason => "failed to parse config file " ++ path ++ ": " ++ reason
  | invalid reason => "invalid configuration: " ++ reason

def failure (e : SettingsError) : Failure := .configuration e.message

end SettingsError

/-- What is set for one run. -/
structure Overrides where
  noDynamic : Bool := false
  analysisCommand : Option (List String) := none
  timeoutSecs : Option Nat := none
  keepSandbox : Bool := false
  rules : Option (List Rule) := none
  deriving DecidableEq, Repr

namespace Settings

/-- The first thing that is wrong with the settings. A command for tests is needed only when they
are run. -/
def fault? (s : Settings) : Option String :=
  if s.analysis.enabled ∧ s.analysis.command = [] then some "analysis.command must not be empty"
  else if s.analysis.timeoutSecs = 0 then some "analysis.timeout_secs must be positive"
  else if s.parser.command = [] then some "parser.command must not be empty"
  else if s.convert.specSuffix = "" then some "convert.spec_suffix must not be empty"
  else none

def checked (s : Settings) : Except SettingsError Settings :=
  match s.fault? with
  | some reason => .error (.invalid reason)
  | none => .ok s

def override (s : Settings) (o : Overrides) : Except SettingsError Settings :=
  checked { s with
    analysis := {
      enabled := s.analysis.enabled && !o.noDynamic
      command := o.analysisCommand.getD s.analysis.command
      timeoutSecs := o.timeoutSecs.getD s.analysis.timeoutSecs
      keepSandbox := s.analysis.keepSandbox || o.keepSandbox }
    convert := { s.convert with rules := o.rules.getD s.convert.rules } }

end Settings
end SpecUpgrade
