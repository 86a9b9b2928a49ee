import SpecUpgrade.Failure
import SpecUpgrade.Rule.Conversion

/-!
What a run reports: an entry for every file with totals over them, or the failure that ended it.
-/

namespace SpecUpgrade

def schemaVersion : String := "1"

structure FileReport where
  path : String
  status : String
  changed : Bool
  conversions : List AppliedRule
  notices : List Notice
  error : Option String
  deriving DecidableEq, Repr

namespace FileReport

/-- The status of a file that could not be read as a tree. -/
def unparsed : String := "parse_error"

def ofConversion (path : String) (c : ConvertedSource) : FileReport :=
  ⟨path, if c.changed then "converted" else "unchanged", c.changed, c.conversions, c.notices, none⟩

def ofParseError (path reason : String) : FileReport :=
  ⟨path, unparsed, false, [], [], some reason⟩

end FileReport

/-- Totals over the files of a run, and whether facts of a test run were at hand. -/
structure Summary where
  files : Nat
  changed : Nat
  conversions : Nat
  notices : Nat
  parseFailures : Nat
  dynamicAnalysis : Bool
  deriving DecidableEq, Repr

def Summary.ofFiles (files : List FileReport) (dynamicAnalysis : Bool) : Summary where
  files := files.length
  changed := files.countP (·.changed)
  conversions := (files.flatMap (·.conversions)).length
  notices := (files.flatMap (·.notices)).length
  parseFailures := files.countP (·.status == FileReport.unparsed)
  dynamicAnalysis := dynamicAnalysis

/-- The report of a run that went through. -/
structure Report where
  status : String
  schemaVersion : String
  dryRun : Bool
  files : List FileReport
  summary : Summary
  deriving DecidableEq, Repr

def Report.ofFiles (files : List FileReport) (dryRun dynamicAnalysis : Bool) : Report :=
  ⟨"ok", SpecUpgrade.schemaVersion, dryRun, files, .ofFiles files dynamicAnalysis⟩

structure FailureReport where
  status : String
  schemaVersion : String
  code : Nat
  message : String
  file : Option String
  deriving DecidableEq, Repr

def Failure.report (f : Failure) : FailureReport :=
  ⟨"error", SpecUpgrade.schemaVersion, f.code, f.message, f.file?⟩

end SpecUpgrade
