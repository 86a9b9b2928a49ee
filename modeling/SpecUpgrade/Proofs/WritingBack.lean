import SpecUpgrade.Project.Convert
import SpecUpgrade.Proofs.Requests
import SpecUpgrade.Proofs.Selection

/-!
What a run does to the files and what it reports. Only files whose conversion changed them are
written, and none is when one of them is not what was read. The report has an entry for each source,
in the order of their places, and no entry depends on the other sources.
-/

namespace SpecUpgrade.Project

/-! ## Stale files -/

section Writing

variable {files files' : FileTree} {writes : List (Source × String)}

/-- The path of a source leads to a file at a place. -/
def FileAt (files : FileTree) (source : Source) (there : Location) : Prop :=
  files.canonical [] source.place.path = .ok there

theorem fileAt_iff_of_alike (h : FileTree.Alike files files') (source : Source)
    (there : Location) : FileAt files source there ↔ FileAt files' source there := by
  unfold FileAt
  rw [FileTree.canonical_eq_ok_iff, FileTree.canonical_eq_ok_iff]
  exact and_congr_right fun _ => ⟨h.leads, h.symm.leads⟩

/-- What has been written shows where the paths lead, each text where none that comes after it is
written, and nowhere else. -/
structure Written (files files' : FileTree) (writes : List (Source × String)) : Prop where
  alike : FileTree.Alike files files'
  elsewhere : ∀ there, (∀ w ∈ writes, ¬ FileAt files w.1 there) →
    files'.look? there = files.look? there
  received : ∀ before w behind there x, writes = before ++ w :: behind → FileAt files w.1 there →
    (∀ v ∈ behind, ¬ FileAt files v.1 there) → files.get? there = some x → x.isLeaf = true →
      files'.get? there = some (x.holding (Utf8.encode w.2))

/-- One file is written before the others. -/
theorem Written.cons {w : Source × String} {there : Location} {x : FileTree}
    (hthere : FileAt files w.1 there) (hget : files.get? there = some x) (hleaf : x.isLeaf = true)
    (h : Written (files.writeAt there (Utf8.encode w.2)) files' writes) :
    Written files files' (w :: writes) := by
  have halike : FileTree.Alike files (files.writeAt there (Utf8.encode w.2)) :=
    FileTree.alike_writeAt hget hleaf
  have hat := fileAt_iff_of_alike halike
  refine ⟨halike.trans h.alike, fun place hplace => ?_, ?_⟩
  · have hne : place ≠ there := fun heq => hplace w (by simp) (heq ▸ hthere)
    rw [← FileTree.look?_writeAt hget hleaf hne]
    exact h.elsewhere place fun v hv hvat => hplace v (by simp [hv]) ((hat v.1 place).mpr hvat)
  · intro before v behind place y hsplit hvat hbehind hy hyleaf
    have hbehind' : ∀ u ∈ behind, ¬ FileAt (files.writeAt there (Utf8.encode w.2)) u.1 place :=
      fun u hu huat => hbehind u hu ((hat u.1 place).mpr huat)
    cases before with
    | nil =>
      -- no later text is written where the first one is
      obtain ⟨rfl, rfl⟩ := List.cons.inj hsplit
      obtain rfl : place = there := Except.ok.inj (hvat.symm.trans hthere)
      rw [hget] at hy
      obtain rfl := Option.some.inj hy
      rw [← FileTree.look?_eq_some_iff_of_isLeaf (FileTree.isLeaf_holding hleaf),
        h.elsewhere place hbehind',
        FileTree.look?_eq_some_iff_of_isLeaf (FileTree.isLeaf_holding hleaf)]
      exact FileTree.get?_writeAt hget hleaf
    | cons first before =>
      obtain ⟨-, rfl⟩ := List.cons.inj hsplit
      have hvat' := (hat v.1 place).mp hvat
      by_cases hne : place = there
      · subst hne
        rw [hget] at hy
        obtain rfl := Option.some.inj hy
        have htwice : (x.holding (Utf8.encode w.2)).holding (Utf8.encode v.2) =
            x.holding (Utf8.encode v.2) := by
          cases x <;> rfl
        rw [← htwice]
        exact h.received before v behind place _ rfl hvat' hbehind'
          (FileTree.get?_writeAt hget hleaf) (FileTree.isLeaf_holding hleaf)
      · rw [← FileTree.look?_eq_some_iff_of_isLeaf hyleaf,
          ← FileTree.look?_writeAt hget hleaf hne, FileTree.look?_eq_some_iff_of_isLeaf hyleaf] at hy
        exact h.received before v behind place y rfl hvat' hbehind' hy hyleaf

end Writing

def Loaded.path : Loaded → String
  | .parsed source _ => source.path
  | .failed path _ => path

def Loaded.source? : Loaded → Option Source
  | .parsed source _ => some source
  | .failed _ _ => none

/-- What is kept of a source is what was read in its place. -/
structure Source.ReadFrom (source : Source) (files : FileTree) (root place : Location) : Prop where
  place_eq : source.place = place
  path_eq : source.path = pathFrom root place
  exists_bytes : ∃ bytes, files.readBytes [] place.path = .ok bytes ∧
    Utf8.text? bytes = some source.content ∧ source.digest = Digest.sha256 bytes

section Loading

variable {host : Host} {d : DumpSource} {root : Location} {files files' : FileTree}
  {place : Location} {places : List Location} {l : Loaded} {loaded : List Loaded}

/-- What making dumps keeps of the files, making trees keeps. -/
theorem tree_keeps {P : FileTree → Prop} {source : Source} (h : P (d.dump host files source).2) :
    P (d.tree host files source).2 := by
  unfold DumpSource.tree
  split <;> (rename_i hdump; rw [hdump] at h; exact h)

/-- What making trees keeps of the files, loading keeps. -/
theorem load_keeps {P : FileTree → Prop} (hfiles : P files)
    (h : ∀ source, P (d.tree host files source).2) : P (load host d root files place).2 := by
  unfold load
  split
  · exact hfiles
  · rename_i bytes hread
    simp only
    split
    · exact hfiles
    · rename_i content htext
      have hkept := h ⟨pathFrom root place, place, content, Digest.sha256 bytes⟩
      split <;> (rename_i htree; rw [htree] at hkept; exact hkept)

theorem load_eq_ok (h : load host d root files place = (.ok l, files')) :
    l.path = pathFrom root place ∧
      ∀ source, l.source? = some source → source.ReadFrom files root place := by
  unfold load at h
  cases hread : files.readBytes [] place.path with
  | error e => simp [hread] at h
  | ok bytes =>
    simp only [hread] at h
    cases htext : Utf8.text? bytes with
    | none =>
      simp only [htext, Prod.mk.injEq, Except.ok.injEq] at h
      obtain ⟨rfl, -⟩ := h
      exact ⟨rfl, by simp [Loaded.source?]⟩
    | some content =>
      simp only [htext] at h
      split at h
      · obtain ⟨rfl, -⟩ : _ ∧ _ := by simpa using h
        refine ⟨rfl, fun source hsource => ?_⟩
        obtain rfl := Option.some.inj hsource
        exact ⟨rfl, rfl, bytes, hread, htext, rfl⟩
      · obtain ⟨rfl, -⟩ : _ ∧ _ := by simpa using h
        exact ⟨rfl, by simp [Loaded.source?]⟩

theorem loadAll_cons_eq_ok (h : loadAll host d root files (place :: places) = (.ok loaded, files')) :
    ∃ l mid rest, load host d root files place = (.ok l, mid) ∧
      loadAll host d root mid places = (.ok rest, files') ∧ loaded = l :: rest := by
  rw [loadAll] at h
  split at h
  · simp at h
  · rename_i l mid hload
    split at h
    · simp at h
    · rename_i rest files'' hrest
      obtain ⟨rfl, rfl⟩ : _ ∧ _ := by simpa using h
      exact ⟨l, mid, rest, hload, hrest, rfl⟩

theorem loadAll_paths (h : loadAll host d root files places = (.ok loaded, files')) :
    loaded.map Loaded.path = places.map (pathFrom root) := by
  induction places generalizing files loaded with
  | nil =>
    cases h
    rfl
  | cons place places ih =>
    obtain ⟨l, mid, rest, hload, hrest, rfl⟩ := loadAll_cons_eq_ok h
    rw [List.map_cons, List.map_cons, (load_eq_ok hload).1, ih hrest]

/-- Every source was read in some state of the files on the way. -/
theorem loadAll_sources (h : loadAll host d root files places = (.ok loaded, files'))
    {source : Source} (hsource : source ∈ loaded.filterMap Loaded.source?) :
    ∃ mid, source.ReadFrom mid root source.place := by
  induction places generalizing files loaded with
  | nil =>
    cases h
    cases hsource
  | cons place places ih =>
    obtain ⟨l, mid, rest, hload, hrest, rfl⟩ := loadAll_cons_eq_ok h
    rw [List.filterMap_cons] at hsource
    cases hl : l.source? with
    | none =>
      rw [hl] at hsource
      exact ih hrest hsource
    | some first =>
      rw [hl] at hsource
      rcases List.mem_cons.mp hsource with rfl | hsource
      · have hread := (load_eq_ok hload).2 _ hl
        exact ⟨files, hread.place_eq ▸ hread⟩
      · exact ih hrest hsource

theorem loadAll_places (h : loadAll host d root files places = (.ok loaded, files')) :
    ((loaded.filterMap Loaded.source?).map Source.place).Sublist places := by
  induction places generalizing files loaded with
  | nil =>
    cases h
    exact .slnil
  | cons place places ih =>
    obtain ⟨l, mid, rest, hload, hrest, rfl⟩ := loadAll_cons_eq_ok h
    rw [List.filterMap_cons]
    cases hl : l.source? with
    | none => exact (ih hrest).cons place
    | some source =>
      rw [List.map_cons, ((load_eq_ok hload).2 _ hl).place_eq]
      exact (ih hrest).cons_cons place

/-- Where dumps are had without a change of the files, every source is loaded as it is alone. -/
theorem loadAll_alone (hd : ∀ source, (d.tree host files source).2 = files)
    (h : loadAll host d root files places = (.ok loaded, files')) :
    files' = files ∧ ∀ e ∈ places.zip loaded, load host d root files e.1 = (.ok e.2, files) := by
  have hload : ∀ place, (load host d root files place).2 = files :=
    fun place => load_keeps (P := (· = files)) rfl hd
  induction places generalizing loaded with
  | nil =>
    cases h
    exact ⟨rfl, by simp⟩
  | cons place places ih =>
    obtain ⟨l, mid, rest, hfirst, hrest, rfl⟩ := loadAll_cons_eq_ok h
    have hmid := hload place
    rw [hfirst] at hmid
    cases hmid
    obtain ⟨hkept, halone⟩ := ih hrest
    refine ⟨hkept, fun e he => ?_⟩
    rcases List.mem_cons.mp he with rfl | he
    · exact hfirst
    · exact halone e he

end Loading

/-! ## Converting what was loaded -/

def told (rules : List Rule) (facts : Facts) (l : Loaded) : FileReport :=
  (convertOne rules facts l).1

def changes (rules : List Rule) (facts : Facts) (loaded : List Loaded) : List (Source × String) :=
  (loaded.map (convertOne rules facts)).filterMap (·.2)

def reportOn (rules : List Rule) (facts : Facts) (dryRun : Bool) (loaded : List Loaded) : Report :=
  Report.ofFiles (loaded.map (told rules facts)) dryRun (!facts.isEmpty)

theorem changes_sublist (rules : List Rule) (facts : Facts) (loaded : List Loaded) :
    ((changes rules facts loaded).map (·.1)).Sublist (loaded.filterMap Loaded.source?) := by
  induction loaded with
  | nil => exact .slnil
  | cons l loaded ih =>
    cases l with
    | failed path reason => exact ih
    | parsed source tree =>
      rw [changes, List.map_cons, List.filterMap_cons]
      simp only [convertOne]
      cases (tree.convert rules facts).changed with
      | false => exact ih.cons source
      | true => exact ih.cons_cons source

theorem units_eq_ok (rules : List Rule) (loaded : List Loaded) :
    ∃ us, units rules loaded = .ok us := by
  induction loaded with
  | nil => exact ⟨[], rfl⟩
  | cons l loaded ih =>
    obtain ⟨us, hus⟩ := ih
    cases l with
    | failed path reason => exact ⟨us, hus⟩
    | parsed source tree =>
      obtain ⟨requests, hcollect, -⟩ := Probe.collect_eq_ok tree rules
      exact ⟨⟨tree, requests⟩ :: us, by rw [units, hcollect, hus]; rfl⟩

/-- What is asked about a source that was read comes before what is asked about the others. -/
theorem units_parsed_eq_ok {rules : List Rule} {source : Source} {tree : Tree}
    {loaded : List Loaded} {us : List ProbedSource}
    (h : units rules (.parsed source tree :: loaded) = .ok us) :
    ∃ requests us', Probe.collect tree rules = .ok requests ∧ units rules loaded = .ok us' ∧
      us = ⟨tree, requests⟩ :: us' := by
  rw [units] at h
  cases hcollect : Probe.collect tree rules with
  | error c => simp [hcollect] at h
  | ok requests =>
    rw [hcollect] at h
    cases hunits : units rules loaded with
    | error e => simp [hunits, Except.map] at h
    | ok us' =>
      rw [hunits] at h
      exact ⟨requests, us', rfl, rfl, (Except.ok.inj h).symm⟩

section Finishing

variable {host : Host} {settings : Settings} {root : Location} {loaded : List Loaded}
  {before files : FileTree} {facts : Facts}

theorem finish_dry (h : gather host settings root loaded before = .ok (facts, files)) :
    finish host settings true root loaded before =
      (.ok (reportOn settings.convert.rules facts true loaded), files) := by
  simp only [finish, h, if_true, List.map_map]
  rfl

theorem finish_real (h : gather host settings root loaded before = .ok (facts, files)) :
    finish host settings false root loaded before =
      match writeChanges files (changes settings.convert.rules facts loaded) with
      | (.error e, files) => (.error e, files)
      | (.ok (), files) => (.ok (reportOn settings.convert.rules facts false loaded), files) := by
  simp only [finish, h, List.map_map]
  rfl

end Finishing

theorem read_eq_ok {host : Host} {settings : Settings} {d : DumpSource} {request : Request}
    {files files' : FileTree} {root : Location} {loaded : List Loaded}
    (h : read host settings d request files = (.ok (root, loaded), files')) :
    files.canonical host.here request.root = .ok root ∧
      ∃ places, select files root request.paths settings.convert.specSuffix = .ok places ∧
        loadAll host d root files places = (.ok loaded, files') := by
  unfold read at h
  cases hroot : files.canonical host.here request.root with
  | error e => simp [hroot] at h
  | ok root' =>
    simp only [hroot] at h
    cases hselect : select files root' request.paths settings.convert.specSuffix with
    | error e => simp [hselect] at h
    | ok places =>
      simp only [hselect] at h
      split at h
      · simp at h
      · rename_i loaded' files'' hload
        obtain ⟨⟨rfl, rfl⟩, rfl⟩ : (_ ∧ _) ∧ _ := by simpa using h
        exact ⟨rfl, places, hselect, hload⟩

/-- A spec file that is selected by its own path is read with the dump that stands beside it. -/
theorem read_stored {host : Host} {settings : Settings} {files : FileTree}
    {root place beside : Location} {path source dump : String} {t : Tree}
    (hroot : files.canonical host.here path = .ok root) (hbelow : root <+: place)
    (hsource : files.get? place = some (.ofText source))
    (hdump : files.get? beside = some (.ofText dump))
    (hbeside : place.path ++ "." ++ DumpSource.extension = beside.path)
    (hne : place ≠ []) (hne' : beside ≠ []) (hnames : ∀ name ∈ place, FileTree.IsName name)
    (hnames' : ∀ name ∈ beside, FileTree.IsName name) (hfits : FileTree.fits place = .ok ())
    (hfits' : FileTree.fits beside = .ok ())
    (htext : Utf8.text? (Utf8.encode source) = some source)
    (htext' : Utf8.text? (Utf8.encode dump) = some dump)
    (htree : Tree.ofDump (pathFrom root place) source dump = .ok t) (dryRun : Bool) :
    read host settings .stored ⟨path, [place.path], dryRun⟩ files =
      (.ok (root, [.parsed ⟨pathFrom root place, place, source,
        Digest.sha256 (Utf8.encode source)⟩ t]), files) := by
  have hselect := select_path settings.convert.specSuffix hsource rfl hne hnames hbelow hfits
  have hbytes : files.readBytes [] place.path = .ok (Utf8.encode source) := by
    rw [FileTree.readBytes_path hsource rfl hne hnames, hfits, FileTree.bytesAt, hsource]
    rfl
  have hbytes' : files.readBytes [] beside.path = .ok (Utf8.encode dump) := by
    rw [FileTree.readBytes_path hdump rfl hne' hnames', hfits', FileTree.bytesAt, hdump]
    rfl
  simp only [read, hroot, hselect, loadAll, load, hbytes, htext, DumpSource.tree, DumpSource.dump,
    hbeside, FileTree.readText, hbytes', htext', htree, bind, Except.bind]

end SpecUpgrade.Project
