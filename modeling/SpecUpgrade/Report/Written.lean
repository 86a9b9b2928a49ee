import SpecUpgrade.Json.Document
import SpecUpgrade.Json.Record
import SpecUpgrade.Report.Basic

/-!
Reports as JSON: one document and a line feed after it. Whatever is written can be read back.
-/

namespace SpecUpgrade

/-- A member that is left out when there is no value. -/
def Document.optional (key : String) : Option String → List (String × Document)
  | some s => [(key, .str s)]
  | none => []

def AppliedRule.document (c : AppliedRule) : Document :=
  .record [("rule", .str c.rule), ("line", .int c.line), ("col", .int c.col)]

def AppliedRule.ofJson? (j : Json) : Option AppliedRule := do
  match ← j.fields? ["rule", "line", "col"] with
  | [rule, line, col] =>
    return ⟨← rule.text?, ← line.count? Word.bound32, ← col.count? Word.bound32⟩
  | _ => none

def Notice.document (n : Notice) : Document :=
  .record [("kind", .str n.kind), ("rule", .str n.rule), ("message", .str n.message),
    ("line", .int n.line), ("col", .int n.col)]

def Notice.ofJson? (j : Json) : Option Notice := do
  match ← j.fields? ["kind", "rule", "message", "line", "col"] with
  | [kind, rule, message, line, col] =>
    return ⟨← kind.text?, ← rule.text?, ← message.text?, ← line.count? Word.bound32,
      ← col.count? Word.bound32⟩
  | _ => none

def FileReport.document (f : FileReport) : Document :=
  .record ([("path", .str f.path), ("status", .str f.status), ("changed", .bool f.changed),
    ("conversions", .list (f.conversions.map AppliedRule.document)),
    ("notices", .list (f.notices.map Notice.document))] ++ Document.optional "error" f.error)

def FileReport.ofJson? (j : Json) : Option FileReport := do
  match ← j.fields? ["path", "status", "changed", "conversions", "notices", "error"] with
  | [path, status, changed, conversions, notices, error] =>
    return ⟨← path.text?, ← status.text?, ← changed.flag?,
      ← conversions.list? AppliedRule.ofJson?, ← notices.list? Notice.ofJson?,
      ← error.maybeText?⟩
  | _ => none

def Summary.document (s : Summary) : Document :=
  .record [("files", .int s.files), ("changed", .int s.changed),
    ("conversions", .int s.conversions),
    ("notices", .int s.notices), ("parse_failures", .int s.parseFailures),
    ("dynamic_analysis", .bool s.dynamicAnalysis)]

def Summary.ofJson? (j : Json) : Option Summary := do
  match ← j.fields? ["files", "changed", "conversions", "notices", "parse_failures",
    "dynamic_analysis"] with
  | [files, changed, conversions, notices, parseFailures, dynamicAnalysis] =>
    return ⟨← files.count? Word.bound64, ← changed.count? Word.bound64,
      ← conversions.count? Word.bound64, ← notices.count? Word.bound64,
      ← parseFailures.count? Word.bound64, ← dynamicAnalysis.flag?⟩
  | _ => none

def Report.document (r : Report) : Document :=
  .record [("status", .str r.status), ("schema_version", .str r.schemaVersion),
    ("dry_run", .bool r.dryRun), ("files", .list (r.files.map FileReport.document)),
    ("summary", r.summary.document)]

def Report.ofJson? (j : Json) : Option Report := do
  match ← j.fields? ["status", "schema_version", "dry_run", "files", "summary"] with
  | [status, version, dryRun, files, summary] =>
    return ⟨← status.text?, ← version.text?, ← dryRun.flag?, ← files.list? FileReport.ofJson?,
      ← Summary.ofJson? summary⟩
  | _ => none

def Report.page (r : Report) : String := r.document.page

def FailureReport.document (r : FailureReport) : Document :=
  .record [("status", .str r.status), ("schema_version", .str r.schemaVersion),
    ("error", .record ([("code", .int r.code), ("message", .str r.message)]
      ++ Document.optional "file" r.file))]

def FailureReport.ofJson? (j : Json) : Option FailureReport := do
  match ← j.fields? ["status", "schema_version", "error"] with
  | [status, version, error] =>
    match ← error.fields? ["code", "message", "file"] with
    | [code, message, file] =>
      return ⟨← status.text?, ← version.text?, ← code.count? 256, ← message.text?,
        ← file.maybeText?⟩
    | _ => none
  | _ => none

def FailureReport.page (r : FailureReport) : String := r.document.page

end SpecUpgrade
