import Mathlib.Data.List.Sort
import SpecUpgrade.Project.Selection
import SpecUpgrade.Proofs.Places

/-!
Which places are selected. They come in order, each once, and in a tree of files in which all names
are names they are files below the root of the project.
-/

namespace SpecUpgrade

/-! ## Files as they are kept -/

namespace FileTree

/-- The names in every directory are names, and no two are the same. -/
inductive WellFormed : FileTree → Prop
  | file (content : List UInt8) (mode : Nat) : WellFormed (.file content mode)
  | link (target : String) : WellFormed (.link target)
  | device (kind : Device) : WellFormed (.device kind)
  | dir {entries : List (String × FileTree)} : (entries.map (·.1)).Nodup →
      (∀ e ∈ entries, IsName e.1) → (∀ e ∈ entries, WellFormed e.2) → WellFormed (.dir entries)

variable {t : FileTree} {place : Location}

theorem WellFormed.entries {entries : List (String × FileTree)}
    (h : (FileTree.dir entries).WellFormed) :
    (entries.map (·.1)).Nodup ∧ (∀ e ∈ entries, IsName e.1) ∧ ∀ e ∈ entries, e.2.WellFormed := by
  cases h with
  | dir hkeys hnames hbelow => exact ⟨hkeys, hnames, hbelow⟩

theorem WellFormed.names (h : t.WellFormed) {x : FileTree} (hget : t.get? place = some x) :
    ∀ name ∈ place, IsName name := by
  induction place generalizing t with
  | nil => simp
  | cons name place ih =>
    obtain ⟨entries, below, rfl, hfound, hget⟩ := get?_cons_eq_some hget
    obtain ⟨-, hnames, hbelow⟩ := h.entries
    have hmem := SortedMap.mem_of_find? hfound
    intro n hn
    rcases List.mem_cons.mp hn with rfl | hn
    · exact hnames _ hmem
    · exact ih (hbelow _ hmem) hget n hn

theorem WellFormed.of_get? (h : t.WellFormed) {x : FileTree} (hget : t.get? place = some x) :
    x.WellFormed := by
  induction place generalizing t with
  | nil =>
    cases hget
    exact h
  | cons name place ih =>
    obtain ⟨entries, below, rfl, hfound, hget⟩ := get?_cons_eq_some hget
    exact ih (h.entries.2.2 _ (SortedMap.mem_of_find? hfound)) hget

theorem mem_walkAll {leaveOut : Location → Bool} {entries : List (String × FileTree)}
    {e : Location × FileTree} :
    e ∈ walkAll leaveOut place entries ↔
      ∃ entry ∈ entries, e ∈ walk leaveOut (place ++ [entry.1]) entry.2 := by
  induction entries with
  | nil => simp [walkAll]
  | cons entry entries ih => simp [walkAll, ih]

theorem mem_walk {leaveOut : Location → Bool} {e : Location × FileTree} :
    e ∈ walk leaveOut place t ↔
      leaveOut place = false ∧
        (e = (place, t) ∨
          ∃ entries, t = .dir entries ∧ ∃ entry ∈ entries,
            e ∈ walk leaveOut (place ++ [entry.1]) entry.2) := by
  cases t with
  | dir entries => cases h : leaveOut place <;> simp [walk, h, mem_walkAll]
  | _ => cases h : leaveOut place <;> simp [walk, h]

/-- A walk finds what stands below its start, in its place, where neither that place nor one on the
way to it is left out. -/
theorem WellFormed.mem_walk_iff (h : t.WellFormed) {leaveOut : Location → Bool}
    {e : Location × FileTree} :
    e ∈ walk leaveOut place t ↔
      ∃ rest, e.1 = place ++ rest ∧ t.get? rest = some e.2 ∧
        ∀ front, front <+: rest → leaveOut (place ++ front) = false := by
  rw [mem_walk]
  constructor
  · rintro ⟨hkept, hfound⟩
    induction h generalizing place with
    | @dir entries hkeys _ _ ih =>
      rcases hfound with rfl | ⟨entries', hsame, entry, hentry, he⟩
      · exact ⟨[], by simp, rfl, by simpa using hkept⟩
      · obtain rfl := dir.inj hsame
        obtain ⟨hbelow, hfound⟩ := mem_walk.mp he
        obtain ⟨rest, hplace, hget, hrest⟩ := ih entry hentry hbelow hfound
        refine ⟨entry.1 :: rest, by rw [hplace, List.append_assoc]; rfl, ?_, ?_⟩
        · rw [get?, SortedMap.find?_of_mem hkeys hentry]
          exact hget
        · intro front hfront
          rcases List.prefix_cons_iff.mp hfront with rfl | ⟨back, rfl, hback⟩
          · rwa [List.append_nil]
          · rw [List.append_cons]
            exact hrest back hback
    | _ =>
      obtain rfl | ⟨entries, hdir, -⟩ := hfound
      · exact ⟨[], by simp, rfl, by simpa using hkept⟩
      · cases hdir
  · rintro ⟨rest, hplace, hget, hkept⟩
    refine ⟨by simpa using hkept [] List.nil_prefix, ?_⟩
    induction rest generalizing t place with
    | nil =>
      rw [List.append_nil] at hplace
      exact .inl (Prod.ext hplace (Option.some.inj hget).symm)
    | cons name rest ih =>
      obtain ⟨entries, below, rfl, hfound, hget⟩ := get?_cons_eq_some hget
      have hentry := SortedMap.mem_of_find? hfound
      rw [List.append_cons] at hplace
      have hrest : ∀ front, front <+: rest → leaveOut (place ++ [name] ++ front) = false := by
        intro front hfront
        rw [← List.append_cons]
        exact hkept _ (List.cons_prefix_cons.mpr ⟨rfl, hfront⟩)
      have hstart : leaveOut (place ++ [name]) = false := by
        simpa using hrest [] List.nil_prefix
      exact .inr ⟨entries, rfl, _, hentry, mem_walk.mpr
        ⟨hstart, ih (h.entries.2.2 _ hentry) hplace hget hrest⟩⟩

end FileTree

open FileTree

/-! ## What is left out -/

/-- Below what is left out everything is. -/
theorem isExcluded_of_front {front place : Location} (hfront : front <+: place)
    (h : isExcluded front = true) : isExcluded place = true := by
  have hrow : ∀ row front place : Location, front <+: place → hasRow row front = true →
      hasRow row place = true := by
    intro row front place hfront h
    induction front generalizing place with
    | nil =>
      rw [hasRow, List.isEmpty_iff] at h
      subst h
      cases place <;> simp [hasRow]
    | cons name front ih =>
      obtain ⟨back, rfl⟩ := hfront
      rw [hasRow, Bool.or_eq_true, List.isPrefixOf_iff_prefix] at h
      rw [List.cons_append, hasRow, Bool.or_eq_true, List.isPrefixOf_iff_prefix]
      exact h.imp (·.trans (List.prefix_append (name :: front) back))
        (ih _ (List.prefix_append front back))
  simp only [isExcluded, Bool.or_eq_true, List.any_eq_true] at h ⊢
  exact h.imp (fun ⟨name, hname, h⟩ => ⟨name, hfront.subset hname, h⟩)
    fun ⟨row, hmem, h⟩ => ⟨row, hmem, hrow row front place hfront h⟩

/-! ## What paths stand for -/

namespace Project

/-- The paths that are followed: those that are asked for, or that of the project if there are
none. -/
def requested (root : Location) (paths : List String) : List String :=
  if paths.isEmpty then [Location.path root] else paths.map (joinPath (Location.path root))

/-- A file that a place stands for: a file stands for itself, and a directory for the spec files
below it that are not left out of the project. -/
inductive StandsFor (files : FileTree) (root : Location) (suffix : String) (place : Location) :
    Location → Prop where
  | file {content : List UInt8} {mode : Nat}
      (hfile : files.get? place = some (.file content mode)) :
      StandsFor files root suffix place place
  | below {found : Location} {content : List UInt8} {mode : Nat} (hdir : files.HasDir place)
      (hbelow : place <+: found) (hfile : files.get? found = some (.file content mode))
      (hsuffix : (found.getLastD "").endsWith suffix = true)
      (hkept : isExcluded (found.drop root.length) = false) :
      StandsFor files root suffix place found

/-- A file that one of the paths stands for. -/
def Selected (files : FileTree) (root : Location) (suffix : String) (paths : List String)
    (found : Location) : Prop :=
  ∃ path ∈ requested root paths, ∃ place, files.canonical root path = .ok place ∧
    StandsFor files root suffix place found

/-- A file of a project, to which the path of its place leads. -/
structure PlainFile (files : FileTree) (root place : Location) : Prop where
  below : root <+: place
  names : ∀ name ∈ place, IsName name
  ne_nil : place ≠ []
  exists_leaf : ∃ x, files.get? place = some x ∧ x.isLeaf = true

/-- An absolute path is not taken from where it is asked for. -/
theorem joinPath_of_isAbsolute {base path : String} (h : isAbsolute path = true) :
    joinPath base path = path := by
  rw [joinPath, if_pos (by rw [h]; rfl)]

theorem isAbsolute_of_requested {root : Location} {paths : List String} {path : String}
    (h : path ∈ requested root paths) : isAbsolute path = true := by
  unfold requested at h
  split at h
  · rw [List.mem_singleton.mp h]
    exact isAbsolute_path root
  · obtain ⟨p, -, rfl⟩ := List.mem_map.mp h
    exact isAbsolute_joinPath (isAbsolute_path root)

section Selecting

variable {files : FileTree} {root place : Location} {suffix path : String} {paths : List String}
  {places : List Location}

theorem StandsFor.exists_file {found : Location} (h : StandsFor files root suffix place found) :
    place <+: found ∧ ∃ content mode, files.get? found = some (.file content mode) := by
  cases h with
  | file hfile => exact ⟨List.prefix_refl _, _, _, hfile⟩
  | below hdir hbelow hfile => exact ⟨hbelow, _, _, hfile⟩

theorem mem_sortPlaces {found : Location} : found ∈ sortPlaces places ↔ found ∈ places := by
  have hkeys : found ∈ (SortedMap.ofList (places.map (·, ()))).map (·.1) ↔ _ :=
    SortedMap.mem_keys_ofList
  simpa [sortPlaces, Function.comp_def] using hkeys

theorem mapM_eq_ok_iff {ε α β : Type} {f : α → Except ε β} {xs : List α} {ys : List β} :
    xs.mapM f = .ok ys ↔ xs.map f = ys.map .ok := by
  induction xs generalizing ys with
  | nil => cases ys <;> simp [pure, Except.pure]
  | cons x xs ih =>
    rw [List.mapM_cons]
    cases hfirst : f x with
    | error e => cases ys <;> simp [bind, Except.bind, hfirst]
    | ok y =>
      cases hrest : xs.mapM f with
      | error e => cases ys <;> simp [bind, Except.bind, hfirst, ← ih, hrest]
      | ok rest => cases ys <;> simp [bind, Except.bind, pure, Except.pure, hfirst, ← ih, hrest]

theorem exists_mapM_iff {ε α β : Type} {f : α → Except ε β} {xs : List α} :
    (∃ ys, xs.mapM f = .ok ys) ↔ ∀ x ∈ xs, ∃ y, f x = .ok y := by
  constructor
  · rintro ⟨ys, h⟩ x hx
    have hmem : f x ∈ ys.map .ok := mapM_eq_ok_iff.mp h ▸ List.mem_map_of_mem hx
    obtain ⟨y, -, hy⟩ := List.mem_map.mp hmem
    exact ⟨y, hy.symm⟩
  · intro h
    induction xs with
    | nil => exact ⟨[], rfl⟩
    | cons x xs ih =>
      obtain ⟨y, hy⟩ := h x (by simp)
      obtain ⟨ys, hys⟩ := ih fun x' hx' => h x' (by simp [hx'])
      refine ⟨y :: ys, mapM_eq_ok_iff.mpr ?_⟩
      rw [List.map_cons, List.map_cons, hy, mapM_eq_ok_iff.mp hys]

theorem mem_mapM_iff {ε α β : Type} {f : α → Except ε β} {xs : List α} {ys : List β}
    (h : xs.mapM f = .ok ys) {y : β} : y ∈ ys ↔ ∃ x ∈ xs, f x = .ok y := by
  have hmem : Except.ok y ∈ xs.map f ↔ y ∈ ys := by simp [mapM_eq_ok_iff.mp h]
  rw [← hmem, List.mem_map]

theorem mem_specFiles {x : FileTree} {found : Location} :
    found ∈ specFiles root place suffix x ↔
      ∃ below y, (below, y) ∈ x.walk isExcluded (place.drop root.length) ∧ y.isFile = true ∧
        (below.getLastD "").endsWith suffix = true ∧ root ++ below = found := by
  simp only [specFiles, List.mem_filterMap, Prod.exists, Option.ite_none_right_eq_some,
    Bool.and_eq_true, Option.some.injEq, and_assoc]

theorem mem_specFiles_iff (hwf : files.WellFormed) {x : FileTree}
    (hget : files.get? place = some x) (hx : x.isFile = false) (hbelow : root <+: place)
    {found : Location} :
    found ∈ specFiles root place suffix x ↔ StandsFor files root suffix place found := by
  obtain ⟨base, rfl⟩ := hbelow
  have hlast : ∀ (front : Location) {back : Location}, back ≠ [] →
      (front ++ back).getLastD "" = back.getLastD "" := by
    intro front back hback
    rw [List.getLastD_eq_getLast?, List.getLastD_eq_getLast?,
      List.getLast?_append_of_ne_nil _ hback]
  rw [mem_specFiles, List.drop_left]
  constructor
  · rintro ⟨below, y, hwalk, hfile, hsuffix, rfl⟩
    obtain ⟨rest, rfl, hrest, hkept⟩ := (hwf.of_get? hget).mem_walk_iff.mp hwalk
    have hthere : files.get? (root ++ base ++ rest) = some y := by
      rw [get?_append, hget]
      exact hrest
    have hne : rest ≠ [] := by
      rintro rfl
      rw [Option.some.inj hrest, hfile] at hx
      cases hx
    rw [← List.append_assoc]
    cases y with
    | file content mode =>
      refine .below (hasDir_of_get?_append hthere hne) (List.prefix_append _ _) hthere ?_ ?_
      · rw [hlast _ hne, ← hlast base hne]
        exact hsuffix
      · rw [List.append_assoc, List.drop_left]
        exact hkept rest (List.prefix_refl rest)
    | _ => cases hfile
  · intro h
    cases h with
    | file hfile =>
      rw [Option.some.inj (hget.symm.trans hfile)] at hx
      cases hx
    | @below _ content mode hdir hbelow hfile hsuffix hkept =>
      obtain ⟨rest, rfl⟩ := hbelow
      have hne : rest ≠ [] := by
        rintro rfl
        rw [List.append_nil] at hfile
        exact not_hasDir_of_isLeaf hfile rfl hdir
      rw [hlast _ hne, ← hlast base hne] at hsuffix
      rw [List.append_assoc, List.drop_left] at hkept
      have hrest : x.get? rest = some (.file content mode) := by
        rw [get?_append, hget] at hfile
        exact hfile
      refine ⟨base ++ rest, .file content mode, (hwf.of_get? hget).mem_walk_iff.mpr
        ⟨rest, rfl, hrest, fun front hfront => Bool.eq_false_iff.mpr fun hout => ?_⟩, rfl, hsuffix,
        (List.append_assoc ..).symm⟩
      have hbase := (List.prefix_append_right_inj base).mpr hfront
      exact Bool.eq_false_iff.mp hkept (isExcluded_of_front hbase hout)

/-- One path stands for files when it leads to a place of the project. -/
theorem exists_selectOne_iff :
    (∃ places, selectOne files root suffix path = .ok places) ↔
      ∃ place, files.canonical root path = .ok place ∧ root <+: place := by
  unfold selectOne
  cases files.canonical root path with
  | error e => simp
  | ok place =>
    by_cases hbelow : root <+: place
    · simp only [List.isPrefixOf_iff_prefix.mpr hbelow, Bool.not_true, Bool.false_eq_true, if_false,
        Except.ok.injEq, exists_eq_left', hbelow, iff_true]
      split <;> exact ⟨_, rfl⟩
    · have houtside : root.isPrefixOf place = false := by
        rwa [Bool.eq_false_iff, Ne, List.isPrefixOf_iff_prefix]
      simp [houtside, hbelow]

theorem select_eq : select files root paths suffix =
    ((requested root paths).mapM (selectOne files root suffix)).map (sortPlaces ·.flatten) := by
  change ((requested root paths).mapM (selectOne files root suffix) >>= fun lists =>
    pure (sortPlaces lists.flatten)) = _
  cases (requested root paths).mapM (selectOne files root suffix) <;> rfl

theorem exists_mapM_of_select (h : select files root paths suffix = .ok places) :
    ∃ lists, (requested root paths).mapM (selectOne files root suffix) = .ok lists ∧
      places = sortPlaces lists.flatten := by
  rw [select_eq] at h
  cases hlists : (requested root paths).mapM (selectOne files root suffix) with
  | error e => simp [hlists, Except.map] at h
  | ok lists =>
    rw [hlists] at h
    exact ⟨lists, rfl, (Except.ok.inj h).symm⟩

/-- Places are selected in order, each once. -/
theorem select_ascending (h : select files root paths suffix = .ok places) :
    places.Pairwise (· < ·) := by
  obtain ⟨lists, -, rfl⟩ := exists_mapM_of_select h
  exact SortedMap.ofList_ascending _

/-- Paths select something when each leads to a place of the project. -/
theorem exists_select_iff :
    (∃ places, select files root paths suffix = .ok places) ↔
      ∀ path ∈ requested root paths,
        ∃ place, files.canonical root path = .ok place ∧ root <+: place := by
  have hone (path : String) : (∃ places, selectOne files root suffix path = .ok places) ↔
      ∃ place, files.canonical root path = .ok place ∧ root <+: place :=
    exists_selectOne_iff
  simp only [← hone, ← exists_mapM_iff]
  constructor
  · rintro ⟨places, h⟩
    obtain ⟨lists, hlists, -⟩ := exists_mapM_of_select h
    exact ⟨lists, hlists⟩
  · rintro ⟨lists, hlists⟩
    exact ⟨sortPlaces lists.flatten, by rw [select_eq, hlists]; rfl⟩

variable (hwf : files.WellFormed) (hdir : files.HasDir [])
include hwf hdir

theorem plainFile_of_get? {x : FileTree} (hbelow : root <+: place)
    (hget : files.get? place = some x) (hleaf : x.isLeaf = true) : PlainFile files root place := by
  refine ⟨hbelow, hwf.names hget, ?_, x, hget, hleaf⟩
  rintro rfl
  exact not_hasDir_of_isLeaf hget hleaf hdir

theorem selectOne_eq_ok (habsolute : isAbsolute path = true)
    (h : selectOne files root suffix path = .ok places) :
    ∃ place, files.canonical root path = .ok place ∧ root <+: place ∧
      ∀ found, found ∈ places ↔ StandsFor files root suffix place found := by
  obtain ⟨place, hcanonical, hbelow⟩ := exists_selectOne_iff.mp ⟨places, h⟩
  refine ⟨place, hcanonical, hbelow, fun found => ?_⟩
  have hleads := (canonical_eq_ok_iff.mp hcanonical).2
  rw [startOf, if_pos habsolute] at hleads
  obtain ⟨x, hget, -⟩ := hleads.exists_get? hdir
  rw [selectOne, hcanonical] at h
  simp only [List.isPrefixOf_iff_prefix.mpr hbelow, Bool.not_true, Bool.false_eq_true, if_false,
    hget] at h
  cases x with
  | file content mode =>
    obtain rfl := Except.ok.inj h
    rw [List.mem_singleton]
    constructor
    · rintro rfl
      exact .file hget
    · intro hfound
      cases hfound with
      | file => rfl
      | below hdir => exact absurd hdir (not_hasDir_of_isLeaf hget rfl)
  | _ =>
    obtain rfl := Except.ok.inj h
    exact mem_specFiles_iff hwf hget rfl hbelow

/-- What paths select is what the places stand for to which they lead. -/
theorem mem_select_iff (h : select files root paths suffix = .ok places) {found : Location} :
    found ∈ places ↔ Selected files root suffix paths found := by
  obtain ⟨lists, hlists, rfl⟩ := exists_mapM_of_select h
  rw [mem_sortPlaces, List.mem_flatten]
  constructor
  · rintro ⟨list, hlist, hfound⟩
    obtain ⟨path, hpath, hone⟩ := (mem_mapM_iff hlists).mp hlist
    obtain ⟨place, hcanonical, -, hmem⟩ :=
      selectOne_eq_ok hwf hdir (isAbsolute_of_requested hpath) hone
    exact ⟨path, hpath, place, hcanonical, (hmem found).mp hfound⟩
  · rintro ⟨path, hpath, place, hcanonical, hfound⟩
    obtain ⟨list, hone⟩ := exists_mapM_iff.mp ⟨lists, hlists⟩ path hpath
    obtain ⟨place', hcanonical', -, hmem⟩ :=
      selectOne_eq_ok hwf hdir (isAbsolute_of_requested hpath) hone
    obtain rfl := Except.ok.inj (hcanonical.symm.trans hcanonical')
    exact ⟨list, (mem_mapM_iff hlists).mpr ⟨path, hpath, hone⟩, (hmem found).mpr hfound⟩

/-- A file that is selected is one of the project. -/
theorem exists_file_of_mem_select (h : select files root paths suffix = .ok places)
    {found : Location} (hfound : found ∈ places) :
    root <+: found ∧ ∃ content mode, files.get? found = some (.file content mode) := by
  obtain ⟨path, hpath, place, hcanonical, hstands⟩ := (mem_select_iff hwf hdir h).mp hfound
  obtain ⟨place', hcanonical', hbelow⟩ := exists_select_iff.mp ⟨places, h⟩ path hpath
  obtain rfl := Except.ok.inj (hcanonical'.symm.trans hcanonical)
  exact ⟨hbelow.trans hstands.exists_file.1, hstands.exists_file.2⟩

/-- Paths that stand for the same files select the same. -/
theorem select_congr {paths' : List String} {places' : List Location}
    (h : select files root paths suffix = .ok places)
    (h' : select files root paths' suffix = .ok places')
    (hsame : ∀ found, Selected files root suffix paths found ↔
      Selected files root suffix paths' found) : places = places' :=
  (select_ascending h).eq_of_mem_iff (select_ascending h') fun found => by
    rw [mem_select_iff hwf hdir h, mem_select_iff hwf hdir h', hsame]

/-- All that is selected are files of the project. -/
theorem select_plain (h : select files root paths suffix = .ok places) :
    ∀ place ∈ places, PlainFile files root place := by
  intro place hplace
  obtain ⟨hbelow, content, mode, hget⟩ := exists_file_of_mem_select hwf hdir h hplace
  exact plainFile_of_get? hwf hdir hbelow hget rfl

end Selecting

/-- The path of a place that holds a file selects that file. -/
theorem select_path {files x : FileTree} {root place : Location} (suffix : String)
    (hget : files.get? place = some x) (hfile : x.isFile = true) (hne : place ≠ [])
    (hnames : ∀ name ∈ place, FileTree.IsName name) (hroot : root <+: place)
    (hfits : FileTree.fits place = .ok ()) :
    select files root [Location.path place] suffix = .ok [place] := by
  have hjoin : joinPath (Location.path root) (Location.path place) = Location.path place :=
    joinPath_of_isAbsolute (isAbsolute_path place)
  have hcanonical : files.canonical root (Location.path place) = .ok place := by
    have hlink : x.isLink = false := by
      cases x <;> first | rfl | cases hfile
    rw [FileTree.canonical_path hget hlink hne hnames, hfits]
    rfl
  have hone : selectOne files root suffix (Location.path place) = .ok [place] := by
    simp only [selectOne, hcanonical, List.isPrefixOf_iff_prefix.mpr hroot, hget]
    cases x <;> first | rfl | cases hfile
  simp only [select, List.isEmpty_cons, Bool.false_eq_true, if_false, List.map_cons, List.map_nil,
    hjoin, List.mapM_cons, List.mapM_nil, hone, bind, Except.bind, pure, Except.pure]
  rfl

end Project
end SpecUpgrade
