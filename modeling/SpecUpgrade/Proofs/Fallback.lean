import SpecUpgrade.Proofs.Confinement
import SpecUpgrade.Proofs.WritingBack

/-!
A run whose tests deliver no facts. It converts what a run without tests converts: a test run can
fail in many ways, but none of them is seen in the report or in the files of the project.
-/

namespace SpecUpgrade

open FileTree

/-! ## Reading sources -/

/-- The files of a project belong to it. -/
theorem Project.PlainFile.ofProject {files : FileTree} {root place : Location}
    (h : PlainFile files root place) (host : Host) : host.OfProject files root place := by
  obtain ⟨x, hget, -⟩ := h.exists_leaf
  refine ⟨.inr h.below, ?_⟩
  rintro name ⟨rest, rfl⟩ hnone
  rw [get?_append, hnone] at hget
  cases hget

namespace Project

section Reading

variable {host : Host} {root : Location} {files now : FileTree}

section Spared

variable (hspares : host.Spares files root) (hnow : SameOn (host.OfProject files root) files now)
include hspares hnow

/-- A command that prints a dump leaves the project as it was. -/
theorem printed_spares (program : String) (arguments : List String) (file : String) :
    SameOn (host.OfProject files root) files
      (DumpSource.printed host now program arguments file).2 := by
  unfold DumpSource.printed
  split
  · exact hnow
  · rename_i home hfresh
    have hnew := Host.newPlace_of_freshPlace hfresh (by decide) (by decide)
    have hapart := hnew.apart hnow
    obtain ⟨name, -, rfl⟩ := hnew.exists_name
    have hscript : DoneBelow (host.temporary ++ [name]) now (FileTree.set (.ofText dumpScript) now
        (host.temporary ++ [name] ++ [DumpSource.scriptName])) :=
      .set_new hnew.hasDir hnew.free (linkFree_of_isLeaf rfl) (by simp)
    simp only
    split
    · exact hnow
    · rename_i f hstart
      have herased : SameOn (host.OfProject files root) files
          (f.files.erase (host.temporary ++ [name])) :=
        (hnow.trans (hscript.sameOn_project hapart)).trans
          ((hspares _ f (Runner.launch_of_start hstart)).trans (sameOn_erase _ hapart))
      split
      · exact herased
      · split <;> exact herased

theorem load_spares (d : DumpSource) (place : Location) :
    SameOn (host.OfProject files root) files (load host d root now place).2 := by
  refine load_keeps hnow fun source => tree_keeps ?_
  cases d with
  | stored =>
    unfold DumpSource.dump
    simp only
    split <;> exact hnow
  | command program arguments => exact printed_spares hspares hnow _ _ _

theorem loadAll_spares (d : DumpSource) (places : List Location) :
    SameOn (host.OfProject files root) files (loadAll host d root now places).2 := by
  induction places generalizing now with
  | nil => exact hnow
  | cons place places ih =>
    have hload := load_spares hspares hnow d place
    rw [loadAll]
    split
    · rename_i e files' h
      rw [h] at hload
      exact hload
    · rename_i l files' h
      rw [h] at hload
      have hrest := ih hload
      split <;> (rename_i h; rw [h] at hrest; exact hrest)

end Spared

/-- Without a directory for temporary files no dump is printed. -/
theorem tree_of_no_temporary (h : ¬ now.HasDir host.temporary) (d : DumpSource) (source : Source) :
    (d.tree host now source).2 = now := by
  refine tree_keeps (P := (· = now)) ?_
  cases d with
  | stored =>
    unfold DumpSource.dump
    simp only
    split <;> rfl
  | command program arguments =>
    unfold DumpSource.dump DumpSource.printed
    simp only
    split
    · rfl
    · rename_i home hfresh
      exact absurd (Host.newPlace_of_freshPlace hfresh (by decide) (by decide)).hasDir h

end Reading

/-- The tree of a source has its path. -/
theorem path_of_loadAll {host : Host} {d : DumpSource} {root : Location} {files files' : FileTree}
    {places : List Location} {loaded : List Loaded}
    (h : loadAll host d root files places = (.ok loaded, files')) {source : Source} {tree : Tree}
    (hsource : .parsed source tree ∈ loaded) : tree.path = source.path := by
  induction places generalizing files loaded with
  | nil =>
    cases h
    cases hsource
  | cons place places ih =>
    obtain ⟨l, mid, rest, hload, hrest, rfl⟩ := loadAll_cons_eq_ok h
    rcases List.mem_cons.mp hsource with rfl | hsource
    · unfold load at hload
      split at hload
      · simp at hload
      · simp only at hload
        split at hload
        · simp at hload
        · split at hload
          · rename_i t files'' htree
            obtain ⟨⟨rfl, rfl⟩, -⟩ : (_ ∧ _) ∧ _ := by simpa using hload
            unfold DumpSource.tree at htree
            split at htree
            · simp at htree
            · exact Tree.path_of_ofDump (Prod.mk.inj htree).1
          · simp at hload
    · exact ih hrest hsource

/-- What is asked about the sources of a project leads nowhere but down. -/
theorem pathDown_of_units {rules : List Rule} {loaded : List Loaded} {us : List ProbedSource}
    (h : units rules loaded = .ok us) (hpaths : ∀ source tree, .parsed source tree ∈ loaded →
      ∃ names, (∀ name ∈ names, IsName name) ∧ tree.path = String.intercalate "/" names) :
    ∀ u ∈ us, Analysis.PathDown u := by
  induction loaded generalizing us with
  | nil =>
    cases h
    simp
  | cons l loaded ih =>
    have hrest : ∀ source tree, .parsed source tree ∈ loaded →
        ∃ names, (∀ name ∈ names, IsName name) ∧ tree.path = String.intercalate "/" names :=
      fun source tree hmem => hpaths source tree (List.mem_cons_of_mem _ hmem)
    cases l with
    | failed path reason => exact ih h hrest
    | parsed source tree =>
      obtain ⟨requests, us', -, hunits, rfl⟩ := units_parsed_eq_ok h
      intro u hu
      rcases List.mem_cons.mp hu with rfl | hu
      · exact hpaths source tree List.mem_cons_self
      · exact ih hunits hrest u hu

/-! ## The same writes -/

/-- Two states of the files hold the same file at a place. -/
structure SameFile (files files' : FileTree) (place : Location) : Prop where
  names : ∀ name ∈ place, IsName name
  ne_nil : place ≠ []
  exists_leaf : ∃ x, files.get? place = some x ∧ files'.get? place = some x ∧ x.isLeaf = true

section Writes

variable {shown : Location → Prop} {files files' : FileTree} {writes : List (Source × String)}

theorem SameFile.stale?_eq {source : Source} (h : SameFile files files' source.place) :
    stale? files source = stale? files' source := by
  obtain ⟨x, hget, hget', hleaf⟩ := h.exists_leaf
  have hlink := isLink_of_isLeaf hleaf
  have hbytes : files.bytesAt source.place = files'.bytesAt source.place := by
    rw [bytesAt, bytesAt, hget, hget']
  rw [stale?, stale?, readBytes_path hget hlink h.ne_nil h.names,
    readBytes_path hget' hlink h.ne_nil h.names, hbytes]

/-- The same texts are written to the same files with the same effect. -/
theorem writeEach_congr (hsame : SameOn shown files files')
    (h : ∀ w ∈ writes, SameFile files files' w.1.place) :
    (writeEach files writes).1 = (writeEach files' writes).1 ∧
      SameOn shown (writeEach files writes).2 (writeEach files' writes).2 := by
  induction writes generalizing files files' with
  | nil => exact ⟨rfl, hsame⟩
  | cons w writes ih =>
    obtain ⟨source, text⟩ := w
    have hfile := h _ List.mem_cons_self
    obtain ⟨x, hget, hget', hleaf⟩ := hfile.exists_leaf
    rw [writeEach, writeEach, writeBytes_path hget hleaf hfile.ne_nil hfile.names,
      writeBytes_path hget' hleaf hfile.ne_nil hfile.names]
    cases fits source.place with
    | error e => exact ⟨rfl, hsame⟩
    | ok _ =>
      have hwritten : ∀ place, files.look? place = files'.look? place →
          (files.writeAt source.place (Utf8.encode text)).look? place =
            (files'.writeAt source.place (Utf8.encode text)).look? place := by
        intro place hlook
        by_cases hplace : place = source.place
        · rw [hplace, look?, look?, get?_writeAt hget hleaf, get?_writeAt hget' hleaf]
        · rw [look?_writeAt hget hleaf hplace, look?_writeAt hget' hleaf hplace, hlook]
      refine ih (fun place hplace => hwritten place (hsame place hplace)) fun v hv => ?_
      have hother := h v (List.mem_cons_of_mem _ hv)
      obtain ⟨y, hy, hy', hyleaf⟩ := hother.exists_leaf
      have hlook : files.look? v.1.place = files'.look? v.1.place := by rw [look?, look?, hy, hy']
      have halike : Alike files (files.writeAt source.place (Utf8.encode text)) :=
        alike_writeAt hget hleaf
      obtain ⟨z, hz, hzleaf⟩ := halike.leaf hy hyleaf
      refine ⟨hother.names, hother.ne_nil, z, hz, ?_, hzleaf⟩
      rw [← look?_eq_some_iff_of_isLeaf hzleaf] at hz ⊢
      rw [← hwritten _ hlook, hz]

theorem findSome?_congr {α β : Type} {f g : α → Option β} {xs : List α}
    (h : ∀ x ∈ xs, f x = g x) : xs.findSome? f = xs.findSome? g := by
  induction xs with
  | nil => rfl
  | cons x xs ih =>
    rw [List.findSome?_cons, List.findSome?_cons, h x (by simp),
      ih fun y hy => h y (List.mem_cons_of_mem _ hy)]

theorem writeChanges_congr (hsame : SameOn shown files files')
    (h : ∀ w ∈ writes, SameFile files files' w.1.place) :
    (writeChanges files writes).1 = (writeChanges files' writes).1 ∧
      SameOn shown (writeChanges files writes).2 (writeChanges files' writes).2 := by
  have hstale : writes.findSome? (stale? files ·.1) = writes.findSome? (stale? files' ·.1) :=
    findSome?_congr fun w hw => (h w hw).stale?_eq
  rw [writeChanges, writeChanges, hstale]
  cases writes.findSome? (stale? files' ·.1) with
  | some failure => exact ⟨rfl, hsame⟩
  | none => exact writeEach_congr hsame h

end Writes

end Project

/-! ## Test runs that deliver facts -/

namespace Analysis

/-- The sandbox of a test run and what its command is given, when it comes to that. -/
def launch? (host : Host) (files : FileTree) (settings : AnalysisSettings) (root : String)
    (units : List ProbedSource) : Option (Sandbox × Launch) :=
  match Sandbox.create host files root settings.keepSandbox (settings.timeoutSecs * 1000) [] with
  | .error _ => none
  | .ok (s, files) =>
    match instrumentAll s files units with
    | (.error _, _) => none
    | (.ok (), files) =>
      match files.writeBytes [] (s.notes ++ [helperName]).path (Utf8.encode helperScript) with
      | .error _ => none
      | .ok files =>
        let s := s.setVariable "RUBYOPT" ("-r" ++ (s.notes ++ [helperName]).path)
        let s := s.setVariable outputVariable (s.notes ++ [payloadName]).path
        match settings.command with
        | [] => none
        | program :: arguments =>
          match host.runner.locate? files s.workspace program with
          | none => none
          | some found =>
            match s.openLogs files with
            | (.error _, _) => none
            | (.ok (), files) =>
              some (s, ⟨files, s.workspace, s.commandVariables, found, arguments,
                some s.timeLimit, .logged (s.log "stdout") (s.log "stderr")⟩)

/-- The command of a test run was run, ended well and in time, and left facts that can be read. -/
def Delivers (host : Host) (files : FileTree) (settings : AnalysisSettings) (root : String)
    (units : List ProbedSource) (f : Facts) : Prop :=
  ∃ s l finish text, launch? host files settings root units = some (s, l) ∧
    host.runner.start l = .ok finish ∧ finish.status = some 0 ∧ finish.timedOut = false ∧
    finish.files.readText [] (s.notes ++ [payloadName]).path = .ok text ∧ Facts.load text = .ok f

theorem facts_eq_ok_iff {s : Sandbox} {settings : AnalysisSettings} {command : List String}
    {finish : Finish} {f : Facts} :
    facts s finish.files settings (s.outcome command finish) = .ok f ↔
      finish.status = some 0 ∧ finish.timedOut = false ∧
        ∃ text, finish.files.readText [] (s.notes ++ [payloadName]).path = .ok text ∧
          Facts.load text = .ok f := by
  unfold facts Sandbox.outcome
  cases finish.timedOut with
  | true => simp
  | false =>
    by_cases hstatus : finish.status = some 0
    · cases finish.files.readText [] (s.notes ++ [payloadName]).path with
      | error e => simp [hstatus]
      | ok text => cases hload : Facts.load text <;> simp [hstatus, hload]
    · simp [hstatus]

/-- A test run has facts exactly when it delivers them. -/
theorem attempt_eq_ok_iff {host : Host} {files : FileTree} {settings : AnalysisSettings}
    {root : String} {units : List ProbedSource} {f : Facts} :
    (attempt host files settings root units).1 = .ok f ↔
      Delivers host files settings root units f := by
  unfold attempt Delivers launch?
  cases Sandbox.create host files root settings.keepSandbox (settings.timeoutSecs * 1000) [] with
  | error e => simp
  | ok made =>
    obtain ⟨s, files₁⟩ := made
    simp only [runTests]
    cases instrumentAll s files₁ units with
    | mk done files₂ =>
    cases done with
    | error e => simp
    | ok _ =>
      simp only
      cases files₂.writeBytes [] (s.notes ++ [helperName]).path (Utf8.encode helperScript) with
      | error e => simp
      | ok files₃ =>
        simp only [Sandbox.run]
        generalize s.setVariable "RUBYOPT" ("-r" ++ (s.notes ++ [helperName]).path) = s₁
        generalize s₁.setVariable outputVariable (s₁.notes ++ [payloadName]).path = s'
        cases settings.command with
        | nil => simp
        | cons program arguments =>
          simp only
          cases host.runner.locate? files₃ s'.workspace program with
          | none => simp
          | some found =>
            simp only
            cases s'.openLogs files₃ with
            | mk opened files₄ =>
            cases opened with
            | error e => simp
            | ok _ =>
              simp only [Option.some.injEq, Prod.mk.injEq]
              generalize (⟨files₄, s'.workspace, s'.commandVariables, found, arguments,
                some s'.timeLimit, .logged (s'.log "stdout") (s'.log "stderr")⟩ : Launch) = l
              cases hstart : host.runner.start l with
              | error e =>
                refine iff_of_false (by simp) ?_
                rintro ⟨_, _, finish, text, ⟨rfl, rfl⟩, hfinish, -⟩
                rw [hstart] at hfinish
                cases hfinish
              | ok finish =>
                refine facts_eq_ok_iff.trans ⟨?_, ?_⟩
                · rintro ⟨hstatus, htime, text, htext⟩
                  exact ⟨s', l, finish, text, ⟨rfl, rfl⟩, hstart, hstatus, htime, htext⟩
                · rintro ⟨_, _, finish', text, ⟨rfl, rfl⟩, hfinish, hstatus, htime, htext⟩
                  rw [hstart] at hfinish
                  obtain rfl := Except.ok.inj hfinish
                  exact ⟨hstatus, htime, text, htext⟩

end Analysis

def Settings.withoutTests (s : Settings) : Settings :=
  { s with analysis := { s.analysis with enabled := false } }

namespace Project

section Gathering

variable {host : Host} {settings : Settings} {root : Location} {loaded : List Loaded}
  {files : FileTree} {us : List ProbedSource}

theorem gather_withoutTests : gather host settings.withoutTests root loaded files =
    .ok (.empty, files) := rfl

/-- Nothing is run when nothing is asked. -/
theorem gather_of_no_requests (hunits : units settings.convert.rules loaded = .ok us)
    (h : us.all (·.requests.isEmpty) = true) :
    gather host settings root loaded files = .ok (.empty, files) := by
  rw [gather, hunits]
  split
  · simp only [Except.map, Analysis.run, h, if_true]
  · rfl

/-- A test run that delivers nothing is as good as none for what is known. -/
theorem gather_of_no_facts (hunits : units settings.convert.rules loaded = .ok us)
    (h : ∀ f, ¬ Analysis.Delivers host files settings.analysis root.path us f) :
    ∃ files', gather host settings root loaded files = .ok (.empty, files') ∧
      (files' = files ∨
        files' = (Analysis.attempt host files settings.analysis root.path us).2) := by
  rw [gather, hunits]
  split
  · simp only [Except.map, Analysis.run]
    split
    · exact ⟨files, rfl, .inl rfl⟩
    · split
      · rename_i f files' hattempt
        exact absurd (Analysis.attempt_eq_ok_iff.mp (congrArg Prod.fst hattempt)) (h f)
      · rename_i e files' hattempt
        exact ⟨files', rfl, .inr (congrArg Prod.snd hattempt).symm⟩
  · exact ⟨files, rfl, .inl rfl⟩

variable {shown : Location → Prop} {before before' files' : FileTree} {settings' : Settings}
  {facts : Facts}

theorem finish_eq_of_gather (hrules : settings.convert = settings'.convert)
    (hgather : gather host settings root loaded before = gather host settings' root loaded before)
    (dryRun : Bool) : finish host settings dryRun root loaded before =
      finish host settings' dryRun root loaded before := by
  rw [finish, finish, hgather, hrules]

/-- With the same facts, and with the same files to be written, sources are finished alike. -/
theorem finish_congr (hrules : settings.convert = settings'.convert)
    (hgather : gather host settings root loaded before = .ok (facts, files))
    (hgather' : gather host settings' root loaded before' = .ok (facts, files'))
    (hsame : SameOn shown files files')
    (hfiles : ∀ w ∈ changes settings.convert.rules facts loaded, SameFile files files' w.1.place)
    (dryRun : Bool) :
    (finish host settings dryRun root loaded before).1 =
        (finish host settings' dryRun root loaded before').1 ∧
      SameOn shown (finish host settings dryRun root loaded before).2
        (finish host settings' dryRun root loaded before').2 := by
  cases dryRun with
  | true =>
    rw [finish_dry hgather, finish_dry hgather', hrules]
    exact ⟨rfl, hsame⟩
  | false =>
    obtain ⟨hresult, hwritten⟩ := writeChanges_congr hsame hfiles
    rw [finish_real hgather, finish_real hgather', ← hrules]
    revert hresult hwritten
    generalize writeChanges files (changes settings.convert.rules facts loaded) = done
    generalize writeChanges files' (changes settings.convert.rules facts loaded) = done'
    obtain ⟨result, after⟩ := done
    obtain ⟨result', after'⟩ := done'
    rintro rfl hwritten
    cases result <;> exact ⟨rfl, hwritten⟩

end Gathering

/-- The sources of a project are files of it that were selected. -/
theorem plainFile_of_read {host : Host} {settings : Settings} {d : DumpSource} {request : Request}
    {files read' : FileTree} {root : Location} {loaded : List Loaded} (hwf : files.WellFormed)
    (hdir : files.HasDir [])
    (hread : read host settings d request files = (.ok (root, loaded), read')) {source : Source}
    (hsource : source ∈ loaded.filterMap Loaded.source?) : PlainFile files root source.place := by
  obtain ⟨-, places, hselect, hload⟩ := read_eq_ok hread
  exact select_plain hwf hdir hselect _
    ((loadAll_places hload).subset (List.mem_map_of_mem hsource))

theorem pathDown_of_read {host : Host} {settings : Settings} {d : DumpSource} {request : Request}
    {files read' : FileTree} {root : Location} {loaded : List Loaded} {us : List ProbedSource}
    (hwf : files.WellFormed) (hdir : files.HasDir [])
    (hread : read host settings d request files = (.ok (root, loaded), read'))
    (hunits : units settings.convert.rules loaded = .ok us) : ∀ u ∈ us, Analysis.PathDown u := by
  refine pathDown_of_units hunits fun source tree hparsed => ?_
  obtain ⟨-, places, -, hload⟩ := read_eq_ok hread
  have hsource : source ∈ loaded.filterMap Loaded.source? :=
    List.mem_filterMap.mpr ⟨_, hparsed, rfl⟩
  obtain ⟨mid, hfrom⟩ := loadAll_sources hload hsource
  have hplain := plainFile_of_read hwf hdir hread hsource
  exact ⟨source.place.drop root.length,
    fun name hname => hplain.names name (List.mem_of_mem_drop hname),
    (path_of_loadAll hload hparsed).trans hfrom.path_eq⟩

/-- A file of the project is the same file in two states that are the same in the project. -/
theorem PlainFile.sameFile {host : Host} {root place : Location} {files now now' : FileTree}
    (h : PlainFile files root place) (hnow : SameOn (host.OfProject files root) files now)
    (hnow' : SameOn (host.OfProject files root) files now') : SameFile now now' place := by
  obtain ⟨x, hget, hleaf⟩ := h.exists_leaf
  rw [← look?_eq_some_iff_of_isLeaf hleaf] at hget
  refine ⟨h.names, h.ne_nil, x, ?_, ?_, hleaf⟩ <;>
    rw [← look?_eq_some_iff_of_isLeaf hleaf]
  · rw [← hnow place (h.ofProject host), hget]
  · rw [← hnow' place (h.ofProject host), hget]

section Fallback

variable {host : Host} {settings : Settings} {d : DumpSource} {request : Request}
  {files read' : FileTree} {root : Location} {loaded : List Loaded} {us : List ProbedSource}

/-- When a test run delivers nothing, either no file was touched, or the project is as it was both
before and after the tests. -/
theorem gather_spares (hwf : files.WellFormed) (hspares : host.Spares files root)
    (hread : read host settings d request files = (.ok (root, loaded), read'))
    (hunits : units settings.convert.rules loaded = .ok us)
    (hfails : ∀ f, ¬ Analysis.Delivers host read' settings.analysis root.path us f) :
    ∃ files', gather host settings root loaded read' = .ok (.empty, files') ∧
      (files' = read' ∨ files.HasDir [] ∧ SameOn (host.OfProject files root) files files' ∧
        SameOn (host.OfProject files root) files read') := by
  obtain ⟨-, places, -, hload⟩ := read_eq_ok hread
  obtain ⟨files', hgather, heq | hattempt⟩ := gather_of_no_facts hunits hfails
  · exact ⟨files', hgather, .inl heq⟩
  refine ⟨files', hgather, ?_⟩
  by_cases htemporary : files.HasDir host.temporary
  · have hdir : files.HasDir [] := htemporary.of_above List.nil_prefix
    obtain ⟨entries, hget⟩ := htemporary
    have hnow := loadAll_spares hspares (.refl files) d places
    rw [hload] at hnow
    have hafter := Analysis.attempt_spares hspares (pathDown_of_read hwf hdir hread hunits)
      (hwf.names hget) hnow settings.analysis root.path
    exact .inr ⟨hdir, hattempt ▸ hafter, hnow⟩
  · have hkept := (loadAll_alone (tree_of_no_temporary htemporary d) hload).1
    obtain ⟨e, hnone⟩ := Analysis.attempt_of_no_temporary (hkept ▸ htemporary) settings.analysis
      root.path us
    exact .inl (by rw [hattempt, hnone])

theorem finish_of_no_requests (hunits : units settings.convert.rules loaded = .ok us)
    (h : us.all (·.requests.isEmpty) = true) (dryRun : Bool) :
    finish host settings dryRun root loaded files =
      finish host settings.withoutTests dryRun root loaded files := by
  have hrules : settings.convert = settings.withoutTests.convert := rfl
  exact finish_eq_of_gather hrules
    ((gather_of_no_requests hunits h).trans gather_withoutTests.symm) dryRun

theorem finish_without_facts (hwf : files.WellFormed) (hspares : host.Spares files root)
    (hread : read host settings d request files = (.ok (root, loaded), read'))
    (hunits : units settings.convert.rules loaded = .ok us)
    (hfails : ∀ f, ¬ Analysis.Delivers host read' settings.analysis root.path us f)
    (dryRun : Bool) :
    (finish host settings dryRun root loaded read').1 =
        (finish host settings.withoutTests dryRun root loaded read').1 ∧
      SameOn (host.OfProject files root) (finish host settings dryRun root loaded read').2
        (finish host settings.withoutTests dryRun root loaded read').2 := by
  have hrules : settings.convert = settings.withoutTests.convert := rfl
  obtain ⟨files', hgather, rfl | ⟨hdir, hafter, hnow⟩⟩ :=
    gather_spares hwf hspares hread hunits hfails
  · rw [finish_eq_of_gather hrules (hgather.trans gather_withoutTests.symm) dryRun]
    exact ⟨rfl, .refl _⟩
  · have hfiles : ∀ w ∈ changes settings.convert.rules .empty loaded,
        SameFile files' read' w.1.place := by
      intro w hw
      have hsource := (changes_sublist _ _ _).subset (List.mem_map_of_mem hw)
      exact (plainFile_of_read hwf hdir hread hsource).sameFile hafter hnow
    exact finish_congr hrules hgather gather_withoutTests (hafter.symm.trans hnow) hfiles dryRun

/-- A run whose tests deliver no facts reports what a run without tests reports, and leaves the
files of the project the same. The tests may fail to start, not end in time, end badly, or leave
nothing that can be read as facts. If nothing is asked, the two runs are one. -/
theorem convert_without_facts (hwf : files.WellFormed)
    (hspares : ∀ root, files.canonical host.here request.root = .ok root → host.Spares files root)
    (hfails : ∀ root loaded read' us,
      read host settings d request files = (.ok (root, loaded), read') →
      units settings.convert.rules loaded = .ok us →
      us.all (·.requests.isEmpty) = true ∨
        ∀ f, ¬ Analysis.Delivers host read' settings.analysis root.path us f) :
    let full := convert host settings d request files
    let static := convert host settings.withoutTests d request files
    full.1 = static.1 ∧
      (∀ root, files.canonical host.here request.root = .ok root →
        SameOn (host.OfProject files root) full.2 static.2) ∧
      ((∀ root loaded read' us,
        read host settings d request files = (.ok (root, loaded), read') →
        units settings.convert.rules loaded = .ok us → us.all (·.requests.isEmpty) = true) →
          full = static) := by
  have hboth : read host settings.withoutTests d request files =
      read host settings d request files := rfl
  simp only [convert, hboth]
  cases hread : read host settings d request files with
  | mk result read' =>
  cases result with
  | error e => exact ⟨rfl, fun _ _ => .refl _, fun _ => rfl⟩
  | ok found =>
    obtain ⟨root, loaded⟩ := found
    simp only
    obtain ⟨hroot, -⟩ := read_eq_ok hread
    obtain ⟨us, hunits⟩ := units_eq_ok settings.convert.rules loaded
    have hidle (hempty : us.all (·.requests.isEmpty) = true) :
        finish host settings request.dryRun root loaded read' =
          finish host settings.withoutTests request.dryRun root loaded read' :=
      finish_of_no_requests hunits hempty _
    rw [← and_assoc]
    refine ⟨?_, fun hempty => hidle (hempty root loaded read' us rfl hunits)⟩
    rcases hfails root loaded read' us hread hunits with hempty | hnone
    · rw [hidle hempty]
      exact ⟨rfl, fun _ _ => .refl _⟩
    · obtain ⟨hreport, hfiles⟩ :=
        finish_without_facts hwf (hspares root hroot) hread hunits hnone request.dryRun
      refine ⟨hreport, fun root' hroot' => ?_⟩
      obtain rfl : root = root' := Except.ok.inj (hroot.symm.trans hroot')
      exact hfiles

end Fallback

/-- A project whose tests end badly. -/
theorem convert_without_facts_failing :
    let files : FileTree := .dir [
      ("p", .dir [("a_spec.rb", .ofText "a.should be"),
        ("a_spec.rb.sexp",
          .ofText "(send @0..11 (send @0..1 nil :a) :should (send @9..11 nil :be))")]),
      ("tmp", .dir [])]
    let failing : Runner :=
      ⟨fun _ _ word => some word, fun l => .ok ⟨some 1, false, 0, [], [], l.files⟩⟩
    let host : Host := ⟨failing, [], ["tmp"]⟩
    let request : Request := ⟨Location.path ["p"], [], false⟩
    (convert host {} .stored request files).1 =
      (convert host (Settings.withoutTests {}) .stored request files).1 := by
  intro files failing host request
  have hwf : files.WellFormed := by
    refine .dir (by decide) (by decide) ?_
    rintro _ (_ | ⟨_, _ | ⟨_, ⟨⟩⟩⟩)
    · refine .dir (by decide) (by decide) ?_
      rintro _ (_ | ⟨_, _ | ⟨_, ⟨⟩⟩⟩)
      · exact .file _ _
      · exact .file _ _
    · exact .dir (by decide) (by simp) (by simp)
  have hspares : ∀ root, host.Spares files root := by
    rintro root l f hlaunch
    obtain rfl := Except.ok.inj hlaunch
    exact .refl _
  have hfails : ∀ read' root us f,
      ¬ Analysis.Delivers host read' ({} : Settings).analysis root us f := by
    rintro read' root us f ⟨s, l, finish, text, -, hstart, hstatus, -⟩
    obtain rfl := Except.ok.inj (Runner.launch_of_start hstart)
    cases hstatus
  exact (convert_without_facts hwf (fun root _ => hspares root)
    fun root _ read' us _ _ => .inr (hfails read' root.path us)).1

end Project
end SpecUpgrade
