import Mathlib
import SpecUpgrade.Proofs.Documents
import SpecUpgrade.Proofs.Outcomes
import SpecUpgrade.Report.Written

/-!
A report that is written out is read back as it was, whatever its texts hold. A record gives back the
value under each of its keys, and nothing under a key that was left out, so each kind of record takes
only its own keys and fields to be put together again.
-/

namespace SpecUpgrade

/-! ## Records and lists -/

namespace Document

theorem itemsToJson_eq_map (items : List Document) : itemsToJson items = items.map toJson := by
  induction items with
  | nil => rfl
  | cons item items ih => rw [itemsToJson, ih, List.map_cons]

theorem membersToJson_eq_map (members : List (String × Document)) :
    membersToJson members = members.map fun m => (m.1, m.2.toJson) := by
  induction members with
  | nil => rfl
  | cons member members ih => rw [membersToJson, ih, List.map_cons]

theorem find?_membersToJson (name : String) (members : List (String × Document)) :
    SortedMap.find? name (membersToJson members) =
      (SortedMap.find? name members).map toJson := by
  induction members with
  | nil => rfl
  | cons member members ih =>
    rw [membersToJson, SortedMap.find?, SortedMap.find?, ih]
    split <;> rfl

/-- A record with different keys gives back the values that it was written with. -/
theorem fields?_record {members : List (String × Document)} (h : (members.map (·.1)).Nodup)
    (names : List String) :
    (record members).toJson.fields? names =
      some (names.map fun name => ((SortedMap.find? name members).map toJson).getD .null) := by
  have hkeys : ((membersToJson members).map (·.1)).Nodup := by
    simpa only [membersToJson_eq_map, List.map_map, Function.comp_def] using h
  simp only [toJson, Json.fields?, SortedMap.find?_ofList hkeys, find?_membersToJson]

theorem list?_list {α : Type} {item? : Json → Option α} {document : α → Document} {xs : List α}
    (h : ∀ x ∈ xs, item? (document x).toJson = some x) :
    (list (xs.map document)).toJson.list? item? = some xs := by
  rw [toJson, itemsToJson_eq_map, Json.list?, List.map_map]
  induction xs with
  | nil => rfl
  | cons x xs ih =>
    obtain ⟨hx, hxs⟩ := List.forall_mem_cons.mp h
    rw [List.map_cons, List.mapM_cons, ih hxs, Function.comp_apply, hx]
    rfl

@[simp] theorem text?_str (s : String) : (str s).toJson.text? = some s := by
  rw [toJson, Json.text?]

@[simp] theorem flag?_bool (b : Bool) : (bool b).toJson.flag? = some b := by
  rw [toJson, Json.flag?]

@[simp] theorem maybeText?_str (s : String) : (str s).toJson.maybeText? = some (some s) := by
  rw [toJson, Json.maybeText?]

theorem count?_int {bound n : Nat} (h : n < bound) :
    (int n).toJson.count? bound = some n := by
  have hfits : 0 ≤ (n : Int) ∧ (n : Int) < bound := by omega
  rw [toJson, Json.count?, if_pos hfits, Int.toNat_natCast]

/-- A member that was left out is read as no text. -/
theorem maybeText?_optional (key : String) (s : Option String) :
    (((SortedMap.find? key (optional key s)).map toJson).getD .null).maybeText? = some s := by
  cases s with
  | none => rfl
  | some s => simp [optional, SortedMap.find?]

theorem Readable.count {depth n : Nat} (h : n < Word.bound64) : Readable depth (.int n) := by
  have hlow : -(Word.half64 : Int) ≤ n := by omega
  exact .int hlow (by omega)

end Document

/-! ## The parts of a report

Every record is put together from what its fields hold, and its document has just these fields. -/

structure FileReport.Fits (f : FileReport) : Prop where
  conversions : ∀ c ∈ f.conversions, c.Fits
  notices : ∀ n ∈ f.notices, n.Fits

structure Summary.Fits (s : Summary) : Prop where
  files : s.files < Word.bound64
  changed : s.changed < Word.bound64
  conversions : s.conversions < Word.bound64
  notices : s.notices < Word.bound64
  parseFailures : s.parseFailures < Word.bound64

structure Report.Fits (r : Report) : Prop where
  files : ∀ f ∈ r.files, f.Fits
  summary : r.summary.Fits

section Fields

variable {j : Json}

theorem AppliedRule.ofJson?_eq_some {c : AppliedRule} {rule line col : Json}
    (h : j.fields? ["rule", "line", "col"] = some [rule, line, col])
    (hrule : rule.text? = some c.rule) (hline : line.count? Word.bound32 = some c.line)
    (hcol : col.count? Word.bound32 = some c.col) : ofJson? j = some c := by
  simp only [ofJson?, h, hrule, hline, hcol, Option.bind_eq_bind, Option.bind_some,
    Option.pure_def]

theorem Notice.ofJson?_eq_some {n : Notice} {kind rule message line col : Json}
    (h : j.fields? ["kind", "rule", "message", "line", "col"] =
      some [kind, rule, message, line, col])
    (hkind : kind.text? = some n.kind) (hrule : rule.text? = some n.rule)
    (hmessage : message.text? = some n.message)
    (hline : line.count? Word.bound32 = some n.line)
    (hcol : col.count? Word.bound32 = some n.col) : ofJson? j = some n := by
  simp only [ofJson?, h, hkind, hrule, hmessage, hline, hcol, Option.bind_eq_bind,
    Option.bind_some, Option.pure_def]

theorem FileReport.ofJson?_eq_some {f : FileReport}
    {path status changed conversions notices error : Json}
    (h : j.fields? ["path", "status", "changed", "conversions", "notices", "error"] =
      some [path, status, changed, conversions, notices, error])
    (hpath : path.text? = some f.path) (hstatus : status.text? = some f.status)
    (hchanged : changed.flag? = some f.changed)
    (hconversions : conversions.list? AppliedRule.ofJson? = some f.conversions)
    (hnotices : notices.list? Notice.ofJson? = some f.notices)
    (herror : error.maybeText? = some f.error) : ofJson? j = some f := by
  simp only [ofJson?, h, hpath, hstatus, hchanged, hconversions, hnotices, herror,
    Option.bind_eq_bind, Option.bind_some, Option.pure_def]

theorem Summary.ofJson?_eq_some {s : Summary}
    {files changed conversions notices parseFailures dynamicAnalysis : Json}
    (h : j.fields? ["files", "changed", "conversions", "notices", "parse_failures",
      "dynamic_analysis"] =
        some [files, changed, conversions, notices, parseFailures, dynamicAnalysis])
    (hfiles : files.count? Word.bound64 = some s.files)
    (hchanged : changed.count? Word.bound64 = some s.changed)
    (hconversions : conversions.count? Word.bound64 = some s.conversions)
    (hnotices : notices.count? Word.bound64 = some s.notices)
    (hfailures : parseFailures.count? Word.bound64 = some s.parseFailures)
    (hdynamic : dynamicAnalysis.flag? = some s.dynamicAnalysis) : ofJson? j = some s := by
  simp only [ofJson?, h, hfiles, hchanged, hconversions, hnotices, hfailures, hdynamic,
    Option.bind_eq_bind, Option.bind_some, Option.pure_def]

theorem Report.ofJson?_eq_some {r : Report} {status version dryRun files summary : Json}
    (h : j.fields? ["status", "schema_version", "dry_run", "files", "summary"] =
      some [status, version, dryRun, files, summary])
    (hstatus : status.text? = some r.status) (hversion : version.text? = some r.schemaVersion)
    (hdryRun : dryRun.flag? = some r.dryRun)
    (hfiles : files.list? FileReport.ofJson? = some r.files)
    (hsummary : Summary.ofJson? summary = some r.summary) : ofJson? j = some r := by
  simp only [ofJson?, h, hstatus, hversion, hdryRun, hfiles, hsummary, Option.bind_eq_bind,
    Option.bind_some, Option.pure_def]

theorem FailureReport.ofJson?_eq_some {r : FailureReport}
    {status version error code message file : Json}
    (h : j.fields? ["status", "schema_version", "error"] = some [status, version, error])
    (herror : error.fields? ["code", "message", "file"] = some [code, message, file])
    (hstatus : status.text? = some r.status) (hversion : version.text? = some r.schemaVersion)
    (hcode : code.count? 256 = some r.code) (hmessage : message.text? = some r.message)
    (hfile : file.maybeText? = some r.file) : ofJson? j = some r := by
  simp only [ofJson?, h, herror, hstatus, hversion, hcode, hmessage, hfile, Option.bind_eq_bind,
    Option.bind_some, Option.pure_def]

end Fields

theorem AppliedRule.ofJson?_document {c : AppliedRule} (h : c.Fits) :
    ofJson? c.document.toJson = some c := by
  refine ofJson?_eq_some (Document.fields?_record (by simp) _) ?_ ?_ ?_
  · simp [SortedMap.find?]
  · simp [SortedMap.find?, Document.count?_int h.line]
  · simp [SortedMap.find?, Document.count?_int h.col]

theorem Notice.ofJson?_document {n : Notice} (h : n.Fits) :
    ofJson? n.document.toJson = some n := by
  refine ofJson?_eq_some (Document.fields?_record (by simp) _) ?_ ?_ ?_ ?_ ?_
  · simp [SortedMap.find?]
  · simp [SortedMap.find?]
  · simp [SortedMap.find?]
  · simp [SortedMap.find?, Document.count?_int h.line]
  · simp [SortedMap.find?, Document.count?_int h.col]

theorem FileReport.ofJson?_document {f : FileReport} (h : f.Fits) :
    ofJson? f.document.toJson = some f := by
  have hconversions := Document.list?_list fun c hc =>
    AppliedRule.ofJson?_document (h.conversions c hc)
  have hnotices := Document.list?_list fun n hn => Notice.ofJson?_document (h.notices n hn)
  have hkeys : (["path", "status", "changed", "conversions", "notices"] ++
      (Document.optional "error" f.error).map (·.1)).Nodup := by
    cases f.error <;> simp [Document.optional]
  refine ofJson?_eq_some (Document.fields?_record (by simpa using hkeys) _) ?_ ?_ ?_ ?_ ?_ ?_
  · simp [SortedMap.find?]
  · simp [SortedMap.find?]
  · simp [SortedMap.find?]
  · simp [SortedMap.find?, hconversions]
  · simp [SortedMap.find?, hnotices]
  · simp [SortedMap.find?, Document.maybeText?_optional]

theorem Summary.ofJson?_document {s : Summary} (h : s.Fits) :
    ofJson? s.document.toJson = some s := by
  refine ofJson?_eq_some (Document.fields?_record (by simp) _) ?_ ?_ ?_ ?_ ?_ ?_
  · simp [SortedMap.find?, Document.count?_int h.files]
  · simp [SortedMap.find?, Document.count?_int h.changed]
  · simp [SortedMap.find?, Document.count?_int h.conversions]
  · simp [SortedMap.find?, Document.count?_int h.notices]
  · simp [SortedMap.find?, Document.count?_int h.parseFailures]
  · simp [SortedMap.find?]

theorem Report.ofJson?_document {r : Report} (h : r.Fits) :
    ofJson? r.document.toJson = some r := by
  have hfiles := Document.list?_list fun f hf => FileReport.ofJson?_document (h.files f hf)
  refine ofJson?_eq_some (Document.fields?_record (by simp) _) ?_ ?_ ?_ ?_ ?_
  · simp [SortedMap.find?]
  · simp [SortedMap.find?]
  · simp [SortedMap.find?]
  · simp [SortedMap.find?, hfiles]
  · simp [SortedMap.find?, Summary.ofJson?_document h.summary]

theorem FailureReport.ofJson?_document {r : FailureReport} (h : r.code < 256) :
    ofJson? r.document.toJson = some r := by
  have hkeys : ((("code", Document.int r.code) :: ("message", .str r.message) ::
      Document.optional "file" r.file).map (·.1)).Nodup := by
    cases r.file <;> simp [Document.optional]
  have herror := Document.fields?_record hkeys ["code", "message", "file"]
  refine ofJson?_eq_some (Document.fields?_record (by simp) _) herror ?_ ?_ ?_ ?_ ?_
  · simp [SortedMap.find?]
  · simp [SortedMap.find?]
  · simp [SortedMap.find?, Document.count?_int h]
  · simp [SortedMap.find?]
  · simp [SortedMap.find?, Document.maybeText?_optional]

/-! ## What stands in the documents -/

section Readable

open Document (Readable)

variable {depth : Nat}

theorem Document.readable_list {α : Type} {document : α → Document} {xs : List α}
    (h : ∀ x ∈ xs, Readable depth (document x)) :
    Readable (depth + 1) (.list (xs.map document)) := by
  refine .list fun d hd => ?_
  obtain ⟨x, hx, rfl⟩ := List.mem_map.mp hd
  exact h x hx

theorem Document.readable_optional {key : String} {s : Option String} :
    ∀ m ∈ optional key s, Readable depth m.2 := by
  cases s <;> simp [optional, Readable.str]

theorem AppliedRule.readable {c : AppliedRule} (h : c.Fits) : Readable (depth + 1) c.document := by
  have hline : c.line < Word.bound64 := h.line.trans (by decide)
  have hcol : c.col < Word.bound64 := h.col.trans (by decide)
  refine .record ?_
  simp [Readable.str, Readable.count hline, Readable.count hcol]

theorem Notice.readable {n : Notice} (h : n.Fits) : Readable (depth + 1) n.document := by
  have hline : n.line < Word.bound64 := h.line.trans (by decide)
  have hcol : n.col < Word.bound64 := h.col.trans (by decide)
  refine .record ?_
  simp [Readable.str, Readable.count hline, Readable.count hcol]

theorem FileReport.readable {f : FileReport} (h : f.Fits) : Readable (depth + 3) f.document := by
  have hconversions : Readable (depth + 2) (.list (f.conversions.map AppliedRule.document)) :=
    Document.readable_list fun c hc => AppliedRule.readable (h.conversions c hc)
  have hnotices : Readable (depth + 2) (.list (f.notices.map Notice.document)) :=
    Document.readable_list fun n hn => Notice.readable (h.notices n hn)
  refine .record (List.forall_mem_append.mpr ⟨?_, Document.readable_optional⟩)
  simp [Readable.str, Readable.bool, hconversions, hnotices]

theorem Summary.readable {s : Summary} (h : s.Fits) : Readable (depth + 1) s.document := by
  refine .record ?_
  simp [Readable.bool, Readable.count h.files, Readable.count h.changed,
    Readable.count h.conversions, Readable.count h.notices, Readable.count h.parseFailures]

theorem Report.readable {r : Report} (h : r.Fits) : Readable (depth + 5) r.document := by
  have hfiles : Readable (depth + 4) (.list (r.files.map FileReport.document)) :=
    Document.readable_list fun f hf => FileReport.readable (h.files f hf)
  have hsummary : Readable (depth + 4) r.summary.document := Summary.readable h.summary
  refine .record ?_
  simp [Readable.str, Readable.bool, hfiles, hsummary]

theorem FailureReport.readable {r : FailureReport} (h : r.code < 256) :
    Readable (depth + 2) r.document := by
  have hcode : r.code < Word.bound64 := h.trans (by decide)
  have herror : Readable (depth + 1) (.record ([("code", .int r.code),
      ("message", .str r.message)] ++ Document.optional "file" r.file)) := by
    refine .record (List.forall_mem_append.mpr ⟨?_, Document.readable_optional⟩)
    simp [Readable.str, Readable.count hcode]
  refine .record ?_
  simpa [Readable.str] using herror

end Readable

/-! ## Pages -/

/-- A text is one object with a single line feed behind it, and what a reader makes of the object is
`a`. -/
def ReadsBack {α : Type} (ofJson? : Json → Option α) (text : String) (a : α) : Prop :=
  ∃ inner j, text = String.ofList ('\x7b' :: (inner ++ ['\x7d', '\n'])) ∧
    Json.ofText? (String.ofList ('\x7b' :: (inner ++ ['\x7d']))) = some j ∧
    Json.ofText? text = some j ∧ ofJson? j = some a

theorem Document.readsBack_page {α : Type} {ofJson? : Json → Option α} {a : α}
    {members : List (String × Document)} (hne : members ≠ [])
    (h : Readable Json.maxDepth (.record members))
    (ha : ofJson? (record members).toJson = some a) :
    ReadsBack ofJson? (record members).page a := by
  obtain ⟨member, members, rfl⟩ := List.exists_cons_of_ne_nil hne
  obtain ⟨hpage, hbody⟩ := h.ofText?
  have hspread : spread 0 (record (member :: members)) =
      '\x7b' :: ((spreadMembers 1 (member :: members) ++ ['\n']) ++ ['\x7d']) := by
    simp [spread, indent]
  refine ⟨spreadMembers 1 (member :: members) ++ ['\n'], _, ?_, ?_, hpage, ha⟩
  · rw [page, hspread]
    simp
  · rwa [hspread] at hbody

theorem Report.readsBack {r : Report} (h : r.Fits) : ReadsBack ofJson? r.page r :=
  Document.readsBack_page (List.cons_ne_nil _ _) (Report.readable h) (ofJson?_document h)

theorem FailureReport.readsBack {r : FailureReport} (h : r.code < 256) :
    ReadsBack ofJson? r.page r :=
  Document.readsBack_page (List.cons_ne_nil _ _) (FailureReport.readable h)
    (ofJson?_document h)

/-! ## Reports of runs -/

/-- Files whose places and totals fit the words that count them. -/
structure FileReport.AllFit (files : List FileReport) : Prop where
  places : ∀ f ∈ files, f.Fits
  length : files.length < Word.bound64
  conversions : (files.map (·.conversions.length)).sum < Word.bound64
  notices : (files.map (·.notices.length)).sum < Word.bound64

/-- The totals of a report, one file after the other. -/
theorem Summary.ofFiles_eq (files : List FileReport) (dynamicAnalysis : Bool) :
    ofFiles files dynamicAnalysis =
      ⟨files.length, (files.filter (·.changed)).length, (files.map (·.conversions.length)).sum,
        (files.map (·.notices.length)).sum,
        (files.filter (·.status == FileReport.unparsed)).length, dynamicAnalysis⟩ := by
  simp only [ofFiles, List.length_flatMap, List.countP_eq_length_filter]

theorem Report.fits_ofFiles {files : List FileReport} (h : FileReport.AllFit files)
    (dryRun dynamicAnalysis : Bool) : (ofFiles files dryRun dynamicAnalysis).Fits := by
  refine ⟨h.places, ?_⟩
  rw [ofFiles, Summary.ofFiles_eq]
  exact ⟨h.length, (List.length_filter_le _ _).trans_lt h.length, h.conversions, h.notices,
    (List.length_filter_le _ _).trans_lt h.length⟩

theorem Failure.code_lt (f : Failure) : f.code < 256 := by
  cases f <;> simp [code]

/-- What is written about a run is read back as it was. Of a run that went through that is every
file, with totals over the files; of a run that ended in a failure, its code, its message and the
file that it is about. -/
theorem reports_readBack :
    (∀ (files : List FileReport) (dryRun dynamicAnalysis : Bool), FileReport.AllFit files →
      ReadsBack Report.ofJson? (Report.ofFiles files dryRun dynamicAnalysis).page
        ⟨"ok", "1", dryRun, files,
          ⟨files.length, (files.filter (·.changed)).length,
            (files.map (·.conversions.length)).sum, (files.map (·.notices.length)).sum,
            (files.filter (·.status == "parse_error")).length, dynamicAnalysis⟩⟩) ∧
    ∀ f : Failure, ReadsBack FailureReport.ofJson? f.report.page
      ⟨"error", "1", f.code, f.message, f.file?⟩ := by
  refine ⟨fun files dryRun dynamicAnalysis h => ?_, fun f => FailureReport.readsBack f.code_lt⟩
  have hread := Report.readsBack (Report.fits_ofFiles h dryRun dynamicAnalysis)
  have hreport : Report.ofFiles files dryRun dynamicAnalysis =
      ⟨"ok", "1", dryRun, files, Summary.ofFiles files dynamicAnalysis⟩ := rfl
  rw [Summary.ofFiles_eq] at hreport
  rw [hreport] at hread ⊢
  exact hread

/-- Quotes, backslashes, control characters and characters beyond ASCII, with and without an error. -/
def FileReport.escaped : List FileReport :=
  [⟨"spec/\"a\\b\" é😀_spec.rb", "converted", true, [⟨"should", 3, 4294967295⟩],
      [⟨"edit_conflict", "stub", "line\none\x01", 7, 1⟩], none⟩,
    ⟨"", unparsed, false, [], [], some "at \t\x7f"⟩]

theorem reports_readBack_escaped :
    FileReport.AllFit FileReport.escaped ∧
      ReadsBack Report.ofJson? (Report.ofFiles FileReport.escaped true false).page
        ⟨"ok", "1", true, FileReport.escaped, ⟨2, 1, 1, 1, 1, false⟩⟩ ∧
      ReadsBack FailureReport.ofJson? (Failure.fileNotFound "a \"b\"").report.page
        ⟨"error", "1", 3, "file not found: a \"b\"", some "a \"b\""⟩ := by
  have hfit : FileReport.AllFit FileReport.escaped := by
    refine ⟨?_, by decide, by decide, by decide⟩
    rw [FileReport.escaped, List.forall_mem_cons, List.forall_mem_singleton]
    constructor
    · exact ⟨List.forall_mem_singleton.mpr ⟨by decide, by decide⟩,
        List.forall_mem_singleton.mpr ⟨by decide, by decide⟩⟩
    · exact ⟨List.forall_mem_nil _, List.forall_mem_nil _⟩
  exact ⟨hfit, reports_readBack.1 _ true false hfit, reports_readBack.2 (.fileNotFound "a \"b\"")⟩

end SpecUpgrade
