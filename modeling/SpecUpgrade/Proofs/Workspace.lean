import SpecUpgrade.Proofs.Copying
import SpecUpgrade.Proofs.Fallback

/-!
The workspace of a sandbox. It is made as a copy of the project, and the instrumented sources are
written into it, each in the place that its path names.
-/

namespace SpecUpgrade

namespace FileTree

variable {t t' t'' new : FileTree} {home place front back : Location}

/-! ## New entries of a directory -/

theorem get?_set_entry (h : t.HasDir front) (name : String) :
    (set new t (front ++ [name])).get? (front ++ [name]) = some new := by
  obtain ⟨entries, hget⟩ := h
  rw [get?_append, get?_set_of_some hget]
  simp [set, get?, SortedMap.find?_insert]

/-- What has nothing below it shows in its own place only, if no directory was there. -/
theorem look?_set_entry {name : String} {there : Location} (hdir : t.HasDir front)
    (hfree : ¬ t.HasDir (front ++ [name])) (hnew : ∀ name back, new.get? (name :: back) = none)
    (hne : there ≠ front ++ [name]) :
    (set new t (front ++ [name])).look? there = t.look? there := by
  by_cases hbelow : front ++ [name] <+: there
  · obtain ⟨back, rfl⟩ := hbelow
    cases back with
    | nil => exact absurd (List.append_nil _) hne
    | cons first back =>
      have hold : t.get? (front ++ [name] ++ first :: back) = none := by
        cases hget : t.get? (front ++ [name] ++ first :: back) with
        | none => rfl
        | some x => exact absurd (hasDir_of_get?_append hget (by simp)) hfree
      -- below the new entry nothing stood before and nothing stands now
      rw [look?_eq_none_iff.mpr hold, look?_eq_none_iff, get?_append, get?_set_entry hdir]
      exact hnew first back
  · refine look?_set hbelow fun habove hnone => ?_
    rcases List.prefix_concat_iff.mp habove with heq | hup
    · exact hne heq
    · obtain ⟨entries, hget⟩ := hdir.of_above hup
      rw [hnone] at hget
      cases hget

/-- What shows at a place is what showed there, or a directory has come where nothing was. -/
def Gains (t t' : FileTree) (there : Location) : Prop :=
  t'.look? there = t.look? there ∨ t.look? there = none ∧ t'.look? there = some (.dir [])

theorem Gains.refl (t : FileTree) (there : Location) : Gains t t there := .inl rfl

theorem Gains.trans {there : Location} (h : Gains t t' there) (h' : Gains t' t'' there) :
    Gains t t'' there := by
  rcases h with hsame | ⟨hnone, hdir⟩
  · rcases h' with hsame' | ⟨hnone, hdir⟩
    · exact .inl (hsame'.trans hsame)
    · exact .inr ⟨hsame ▸ hnone, hdir⟩
  · rcases h' with hsame | ⟨hnone', -⟩
    · exact .inr ⟨hnone, hsame.trans hdir⟩
    · rw [hdir] at hnone'
      cases hnone'

/-- What showed before shows still. -/
theorem Gains.look?_eq {there : Location} (h : Gains t t' there) {x : FileTree}
    (hlook : t.look? there = some x) : t'.look? there = some x := by
  rcases h with hsame | ⟨hnone, -⟩
  · rw [hsame, hlook]
  · rw [hlook] at hnone
    cases hnone

/-- No device comes to a place. -/
theorem Gains.not_device {there : Location} (h : Gains t t' there)
    (hdevice : ∀ kind, t.look? there ≠ some (.device kind)) (kind : Device) :
    t'.look? there ≠ some (.device kind) := by
  rcases h with hsame | ⟨-, hdir⟩
  · rw [hsame]
    exact hdevice kind
  · rw [hdir]
    simp

theorem gains_makeDir {here : Location} {path : String} (h : t.makeDir here path = .ok t') :
    ∀ there, Gains t t' there := by
  unfold makeDir FileTree.place at h
  cases hparent : t.parentOf here path with
  | error e => simp [hparent] at h
  | ok found =>
    obtain ⟨parent, name?⟩ := found
    cases name? with
    | none => simp [hparent] at h
    | some name =>
      obtain ⟨-, -, hdir, -⟩ := parentOf_eq_ok hparent
      cases hget : t.get? (parent ++ [name]) with
      | some x => simp [hparent, hget] at h
      | none =>
        obtain rfl : _ = t' := by simpa [hparent, hget] using h
        intro there
        by_cases hne : there = parent ++ [name]
        · refine .inr ⟨hne ▸ look?_eq_none_iff.mpr hget, ?_⟩
          rw [hne, look?, get?_set_entry hdir]
          rfl
        · refine .inl (look?_set_entry hdir ?_ (fun _ _ => rfl) hne)
          rintro ⟨entries, hentries⟩
          rw [hget] at hentries
          cases hentries

theorem gains_makeDirs (t : FileTree) (here : Location) (base : String) (steps : List String) :
    ∀ there, Gains t (t.makeDirs here base steps).2 there :=
  makeDirs_keeps (P := fun t' => ∀ there, Gains t t' there)
    (fun _ hgains hmake there => (hgains there).trans (gains_makeDir hmake there)) (Gains.refl t)

/-! ## Written files -/

/-- Names lead straight down from a place below a directory without links. -/
theorem Enclosed.leads_names (h : t.Enclosed home) {links : Nat} {there : Location}
    {names : List String} (hnames : ∀ name ∈ names, IsName name)
    (hleads : Leads t links (home ++ back) names there) : there = home ++ back ++ names := by
  generalize hhere : home ++ back = here at hleads
  induction hleads generalizing back with
  | stay => simp
  | skip hskip =>
    have hname := hnames _ List.mem_cons_self
    exact (hskip.elim hname.not_empty hname.not_same).elim
  | up => exact absurd rfl (hnames _ (by simp)).not_up
  | @enter _ here _ name _ _ _ _ _ ih =>
    have hnext : home ++ (back ++ [name]) = here ++ [name] := by rw [← hhere, List.append_assoc]
    rw [ih (fun n hn => hnames n (List.mem_cons_of_mem _ hn)) hnext]
    simp
  | reach => rfl
  | @through _ here _ name target _ _ hget =>
    rw [← hhere, List.append_assoc] at hget
    exact absurd hget (h.not_link _ _)

/-- A file with a relative path is written in the place that the path names. -/
theorem Enclosed.filePlace_join (h : t.Enclosed home) (hne : home ≠ [])
    (hhome : ∀ name ∈ home, IsName name) {last : String}
    (hnames : ∀ name ∈ front ++ [last], IsName name)
    (hplace : t.filePlace []
      (joinPath (Location.path home) (String.intercalate "/" (front ++ [last]))) = .ok place) :
    place = home ++ front ++ [last] ∧ t.HasDir (home ++ front) ∧ ¬ t.HasDir place := by
  have hpath := pathNames_join hne hhome hnames
  rw [pathNames_intercalate (by simp) hnames, ← List.append_assoc, ← List.cons_append] at hpath
  generalize joinPath (Location.path home) (String.intercalate "/" (front ++ [last])) = path
    at hpath hplace
  have htrimmed := trimmed_eq hpath (hnames last (by simp)).not_empty
  cases hparent : t.parentOf [] path with
  | error e => simp [filePlace, filePlaceFrom, hparent] at hplace
  | ok found =>
    obtain ⟨parent, name?⟩ := found
    obtain ⟨-, hleads, hdir, hname⟩ := parentOf_eq_ok hparent
    rw [htrimmed, List.dropLast_concat, startOf_root] at hleads
    have hfront : Leads t _ ([] ++ home) front parent := hleads.of_empty.through_dirs hhome h.hasDir
    rw [List.nil_append, ← List.append_nil home] at hfront
    obtain rfl := h.leads_names (fun n hn => hnames n (by simp [hn])) hfront
    rw [List.append_nil] at hdir hparent
    obtain ⟨name, rfl, rfl, hfree⟩ := h.filePlace_eq_ok (List.prefix_append ..) hparent hplace
    obtain ⟨hlast, -⟩ := hname name rfl
    rw [htrimmed, List.getLastD_concat] at hlast
    obtain rfl := hlast
    exact ⟨rfl, hdir, hfree⟩

/-- A file has come to a place, and directories may have come to others. -/
structure Puts (t t' : FileTree) (place : Location) (content : List UInt8) : Prop where
  elsewhere : ∀ there, there ≠ place → Gains t t' there
  held : (∀ kind, t.look? place ≠ some (.device kind)) →
    ∃ mode, t'.look? place = some (.file content mode)

theorem puts_writeAt {name : String} (hdir : t.HasDir front) (hfree : ¬ t.HasDir (front ++ [name]))
    (content : List UInt8) :
    Puts t (t.writeAt (front ++ [name]) content) (front ++ [name]) content := by
  have hset : ∀ mode,
      Puts t (set (.file content mode) t (front ++ [name])) (front ++ [name]) content := by
    refine fun mode => ⟨fun there hne => ?_, fun _ => ⟨mode, ?_⟩⟩
    · exact .inl (look?_set_entry hdir hfree (fun _ _ => rfl) hne)
    · rw [look?, get?_set_entry hdir]
      rfl
  unfold writeAt
  split
  · exact hset _
  · rename_i kind hget
    refine ⟨fun _ _ => .inl rfl, fun hdevice => absurd ?_ (hdevice kind)⟩
    rw [look?, hget]
    rfl
  · exact hset _

theorem Puts.after_gains {content : List UInt8} (h : Puts t' t'' place content)
    (hgains : ∀ there, Gains t t' there) : Puts t t'' place content :=
  ⟨fun there hne => (hgains there).trans (h.elsewhere there hne),
    fun hdevice => h.held ((hgains place).not_device hdevice)⟩

theorem writeBytes_slash {here : Location} {path : String} (hslash : path.endsWith "/" = true)
    (content : List UInt8) : t.writeBytes here path content ≠ .ok t' := by
  intro h
  obtain ⟨place, hplace, -⟩ := writeBytes_eq_ok_iff.mp h
  rw [filePlace, filePlaceFrom] at hplace
  split at hplace
  · cases hplace
  · cases hplace
  · rw [if_pos hslash] at hplace
    cases hplace

/-! ## Files that are there already -/

theorem intercalate_append {sep : List Char} {xs ys : List (List Char)} (hxs : xs ≠ [])
    (hys : ys ≠ []) :
    sep.intercalate (xs ++ ys) = sep.intercalate xs ++ sep ++ sep.intercalate ys := by
  induction xs with
  | nil => exact absurd rfl hxs
  | cons cs xs ih =>
    cases xs with
    | nil => cases ys <;> simp_all [List.intercalate]
    | cons cs' xs =>
      have ih := ih (by simp)
      simp only [List.intercalate, List.cons_append, List.intersperse_cons_cons, List.flatten_cons,
        List.append_assoc] at ih ⊢
      rw [ih]

/-- The path of a place below another. -/
theorem path_append {names : List String} (hne : place ≠ []) (hnames : names ≠ []) :
    Location.path (place ++ names) =
      Location.path place ++ "/" ++ String.intercalate "/" names := by
  have hlists : ['/'].intercalate (place.map String.toList ++ names.map String.toList) = _ :=
    intercalate_append (by simpa using hne) (by simpa using hnames)
  rw [← String.toList_inj]
  simp [toList_path, String.toList_append, String.toList_intercalate, hlists]

theorem pathSteps_path (hne : place ≠ []) (h : ∀ name ∈ place, IsName name) :
    pathSteps (Location.path place) = place := by
  have hpath : pathNames (Location.path place) = "" :: (place ++ []) := by
    rw [pathNames_path hne h, List.append_nil]
  rw [pathSteps_eq hpath h, List.filter_nil, List.append_nil]

/-- A directory that is there need not be made. -/
theorem makeDirs_path (hdir : t.HasDir place) (hne : place ≠ [])
    (h : ∀ name ∈ place, IsName name) (hfits : fits place = .ok ()) :
    t.makeDirs [] "/" place = (.ok (), t) := by
  obtain ⟨up, name, rfl⟩ : ∃ up name, place = up ++ [name] :=
    ⟨place.dropLast, place.getLast hne, (List.dropLast_concat_getLast hne).symm⟩
  obtain ⟨entries, hget⟩ := hdir
  have hmake : t.makeDir [] (Location.path (up ++ [name])) = .error .alreadyThere := by
    simp [makeDir, FileTree.place, parentOf_path hget h, hfits, Except.map, hget]
  have hat : t.isDirAt [] (Location.path (up ++ [name])) = true := by
    simp [isDirAt, canonical_path hget rfl hne h, hfits, Except.map, hget, isDir]
  rw [makeDirs, joinPath_root h]
  simp [hmake, hat]

end FileTree

open FileTree

/-! ## Writing into the workspace -/

namespace Sandbox

variable {s : Sandbox} {files files' : FileTree} (hnames : ∀ name ∈ s.workspace, IsName name)
include hnames

theorem endsWith_slash_join : (joinPath s.workspace.path "").endsWith "/" = true := by
  have hne : s.workspace ≠ [] := by simp [workspace]
  have hjoin := joinPath_path hne hnames (List.forall_mem_nil _)
  rw [String.intercalate_nil] at hjoin
  rw [hjoin, String.endsWith_eq_endsWith_toSlice, String.Slice.endsWith_string_iff,
    String.copy_toSlice]
  simp [String.toList_append]

theorem pathNames_join_empty :
    pathNames (joinPath s.workspace.path "") = "" :: (s.workspace ++ [""]) := by
  have hne : s.workspace ≠ [] := by simp [workspace]
  have hjoin := pathNames_join hne hnames (List.forall_mem_nil _)
  rw [String.intercalate_nil] at hjoin
  rw [hjoin]
  have hempty : pathNames "" = [""] := by decide
  rw [hempty]

/-- A relative path has the workspace before its names. -/
theorem pathNames_join_workspace {names : List String} (hpath : ∀ name ∈ names, IsName name) :
    ∃ more, pathNames (joinPath s.workspace.path (String.intercalate "/" names)) =
      "" :: (s.workspace ++ more) ∧ ∀ name ∈ more, name = "" ∨ IsName name := by
  have hne : s.workspace ≠ [] := by simp [workspace]
  cases names with
  | nil => exact ⟨[""], pathNames_join_empty hnames, by simp⟩
  | cons name names =>
    refine ⟨name :: names, ?_, fun n hn => .inr (hpath n hn)⟩
    rw [pathNames_join hne hnames hpath, pathNames_intercalate (by simp) hpath]

/-- All that is done by a write is done in the workspace. -/
theorem write_within (h : files.Enclosed s.workspace) {names : List String}
    (hpath : ∀ name ∈ names, IsName name) (content : String) :
    DoneBelow s.workspace files (s.write files (String.intercalate "/" names) content).2 := by
  obtain ⟨more, hmore, hnamed⟩ := pathNames_join_workspace hnames hpath
  refine write_done hnames h hmore hnamed fun henclosed hwrite => ?_
  cases names with
  | nil =>
    rw [String.intercalate_nil] at hwrite
    exact absurd hwrite (writeBytes_slash (endsWith_slash_join hnames) _)
  | cons name names =>
    have hinside : Inside s.workspace
        (joinPath s.workspace.path (String.intercalate "/" (name :: names))) (name :: names) := by
      have hne : s.workspace ≠ [] := by simp [workspace]
      refine ⟨?_, fun hup => (hpath _ hup).not_up rfl, name, List.mem_cons_self,
        (hpath name List.mem_cons_self).not_empty⟩
      rw [pathNames_join hne hnames hpath, pathNames_intercalate (by simp) hpath]
    exact henclosed.writeBytes_below hnames hinside hwrite

/-- A write that succeeds puts its file in the place that the path names. -/
theorem write_puts (h : files.Enclosed s.workspace) {names : List String}
    (hpath : ∀ name ∈ names, IsName name) {content : String}
    (hwrite : s.write files (String.intercalate "/" names) content = (.ok (), files')) :
    Puts files files' (s.workspace ++ names) (Utf8.encode content) := by
  obtain ⟨more, hmore, hnamed⟩ := pathNames_join_workspace hnames hpath
  have hdirs := h.makeParents_below hnames hmore hnamed
  have hgains := gains_makeDirs files [] "/"
    (pathSteps (joinPath s.workspace.path (String.intercalate "/" names))).dropLast
  unfold write at hwrite
  simp only at hwrite
  split at hwrite
  · cases hwrite
  · rename_i mid hmade
    rw [hmade] at hdirs hgains
    split at hwrite
    · cases hwrite
    · rename_i after hbytes
      obtain rfl := (Prod.mk.inj hwrite).2
      rcases List.eq_nil_or_concat names with rfl | ⟨front, last, rfl⟩
      · rw [String.intercalate_nil] at hbytes
        exact absurd hbytes (writeBytes_slash (endsWith_slash_join hnames) _)
      · rw [List.concat_eq_append] at hbytes hpath ⊢
        obtain ⟨place, hplace, rfl⟩ := writeBytes_eq_ok_iff.mp hbytes
        obtain ⟨rfl, hdir, hfree⟩ :=
          hdirs.enclosed.filePlace_join (by simp [workspace]) hnames hpath hplace
        rw [← List.append_assoc]
        exact (puts_writeAt hdir hfree _).after_gains hgains

/-- A file that stands in the workspace is written anew, unless its path is too long. -/
theorem write_over {names : List String} {x : FileTree} (hne : names ≠ [])
    (hpath : ∀ name ∈ names, IsName name) (hget : files.get? (s.workspace ++ names) = some x)
    (hleaf : x.isLeaf = true) (hfits : fits (s.workspace ++ names.dropLast) = .ok ())
    (hfits' : fits (s.workspace ++ names) = .ok ()) (content : String) :
    s.write files (String.intercalate "/" names) content =
      (.ok (), files.writeAt (s.workspace ++ names) (Utf8.encode content)) := by
  have hworkspace : s.workspace ≠ [] := by simp [workspace]
  have hall : ∀ name ∈ s.workspace ++ names, IsName name := fun name hname =>
    (List.mem_append.mp hname).elim (hnames name) (hpath name)
  have hjoin : joinPath s.workspace.path (String.intercalate "/" names) =
      Location.path (s.workspace ++ names) := by
    rw [joinPath_path hworkspace hnames hpath, path_append hworkspace hne]
  have hup : (s.workspace ++ names).dropLast = s.workspace ++ names.dropLast :=
    List.dropLast_append_of_ne_nil hne
  have hdir : files.HasDir (s.workspace ++ names.dropLast) := by
    rw [← List.dropLast_concat_getLast hne, ← List.append_assoc] at hget
    exact hasDir_of_get?_append hget (by simp)
  have hmade := makeDirs_path hdir (by simp [workspace])
    (fun name hname => hall name ((List.dropLast_sublist _).subset (hup ▸ hname))) hfits
  have hplace : s.workspace ++ names ≠ [] := List.append_ne_nil_of_left_ne_nil hworkspace names
  simp only [write, hjoin, pathSteps_path hplace hall, hup, hmade,
    writeBytes_path hget hleaf hplace hall, hfits', Except.map]

end Sandbox

namespace Analysis

theorem pathSteps_intercalate {names : List String} (h : ∀ name ∈ names, IsName name) :
    pathSteps (String.intercalate "/" names) = names := by
  cases names with
  | nil =>
    rw [String.intercalate_nil]
    decide
  | cons name names =>
    rw [pathSteps, pathNames_intercalate (by simp) h, List.filter_eq_self]
    intro n hn
    simp [(h n hn).not_empty, (h n hn).not_same]

/-- The paths of two units with the same names are the same. -/
theorem PathDown.path_eq {u v : ProbedSource} (hu : PathDown u) (hv : PathDown v)
    (h : pathSteps u.tree.path = pathSteps v.tree.path) : u.tree.path = v.tree.path := by
  obtain ⟨names, hnames, hpath⟩ := hu
  obtain ⟨names', hnames', hpath'⟩ := hv
  rw [hpath, hpath', pathSteps_intercalate hnames, pathSteps_intercalate hnames'] at h
  rw [hpath, hpath', h]

variable {s : Sandbox} {now after : FileTree} {units : List ProbedSource}

/-- When all units are written, the instrumented source of each stands in the place that its path
names, and nothing has changed elsewhere but that directories have come. -/
theorem instrumentAll_puts (hnames : ∀ name ∈ s.workspace, IsName name)
    (hunits : ∀ u ∈ units, PathDown u) (hpaths : (units.map (·.tree.path)).Nodup)
    (h : now.Enclosed s.workspace)
    (hdevices : ∀ back kind, now.look? (s.workspace ++ back) ≠ some (.device kind))
    (hok : instrumentAll s now units = (.ok (), after)) :
    (∀ there, (∀ u ∈ units, there ≠ s.workspace ++ pathSteps u.tree.path) → Gains now after there) ∧
      ∀ u ∈ units, u.requests.isEmpty = false →
        ∃ mode, after.look? (s.workspace ++ pathSteps u.tree.path) =
          some (.file (Utf8.encode (Probe.instrument u.tree u.requests).source) mode) := by
  induction units generalizing now with
  | nil =>
    cases hok
    exact ⟨fun there _ => .refl _ there, by simp⟩
  | cons u units ih =>
    have hrest : ∀ v ∈ units, PathDown v := fun v hv => hunits v (List.mem_cons_of_mem _ hv)
    obtain ⟨hfresh, hpaths'⟩ := List.nodup_cons.mp hpaths
    rw [instrumentAll] at hok
    split at hok
    · rename_i hempty
      obtain ⟨helsewhere, hheld⟩ := ih hrest hpaths' h hdevices hok
      refine ⟨fun there hne => helsewhere there fun v hv => hne v (List.mem_cons_of_mem _ hv), ?_⟩
      intro v hv hasks
      rcases List.mem_cons.mp hv with rfl | hv
      · rw [hempty] at hasks
        cases hasks
      · exact hheld v hv hasks
    · split at hok
      · cases hok
      · rename_i mid hwrite
        obtain ⟨names, hpath, hu⟩ := hunits u List.mem_cons_self
        have hsteps : pathSteps u.tree.path = names := by rw [hu, pathSteps_intercalate hpath]
        rw [hu] at hwrite
        have hputs := Sandbox.write_puts hnames h hpath hwrite
        have hbelow :=
          Sandbox.write_within hnames h hpath (Probe.instrument u.tree u.requests).source
        rw [hwrite] at hbelow
        rw [← hsteps] at hputs
        have hdevices' : ∀ back kind, mid.look? (s.workspace ++ back) ≠ some (.device kind) := by
          intro back kind
          by_cases hback : s.workspace ++ back = s.workspace ++ pathSteps u.tree.path
          · obtain ⟨mode, hlook⟩ := hputs.held (hdevices _)
            rw [hback, hlook]
            simp
          · exact (hputs.elsewhere _ hback).not_device (hdevices back) kind
        obtain ⟨helsewhere, hheld⟩ := ih hrest hpaths' hbelow.enclosed hdevices' hok
        refine ⟨fun there hne => ?_, fun v hv hasks => ?_⟩
        · exact (hputs.elsewhere there (hne u List.mem_cons_self)).trans
            (helsewhere there fun v hv => hne v (List.mem_cons_of_mem _ hv))
        · rcases List.mem_cons.mp hv with rfl | hv
          · -- no later unit is written in the same place
            obtain ⟨mode, hlook⟩ := hputs.held (hdevices _)
            refine ⟨mode, (helsewhere _ fun w hw hsame => hfresh ?_).look?_eq hlook⟩
            have hpathEq := (hunits v List.mem_cons_self).path_eq (hrest w hw)
              (List.append_cancel_left hsame)
            exact List.mem_map.mpr ⟨w, hw, hpathEq.symm⟩
          · exact hheld v hv hasks

end Analysis

namespace Project

/-- The paths of units are paths of loaded sources. -/
theorem units_paths {rules : List Rule} {loaded : List Loaded} {us : List ProbedSource}
    (h : units rules loaded = .ok us)
    (hpath : ∀ source tree, .parsed source tree ∈ loaded → tree.path = source.path) :
    (us.map (·.tree.path)).Sublist (loaded.map Loaded.path) := by
  induction loaded generalizing us with
  | nil =>
    cases h
    exact .slnil
  | cons l loaded ih =>
    have hrest : ∀ source tree, .parsed source tree ∈ loaded → tree.path = source.path :=
      fun source tree hmem => hpath source tree (List.mem_cons_of_mem _ hmem)
    cases l with
    | failed path reason => exact (ih h hrest).cons _
    | parsed source tree =>
      obtain ⟨requests, us', -, hunits, rfl⟩ := units_parsed_eq_ok h
      rw [List.map_cons, List.map_cons, hpath source tree List.mem_cons_self]
      exact (ih hunits hrest).cons_cons _

/-- Of the sources that were read no two have the same path. -/
theorem nodup_paths_of_read {host : Host} {settings : Settings} {d : DumpSource} {request : Request}
    {files now : FileTree} {root : Location} {loaded : List Loaded} {us : List ProbedSource}
    (hwf : files.WellFormed) (hdir : files.HasDir [])
    (hread : read host settings d request files = (.ok (root, loaded), now))
    (hunits : units settings.convert.rules loaded = .ok us) :
    (us.map (·.tree.path)).Nodup := by
  obtain ⟨-, places, hselect, hload⟩ := read_eq_ok hread
  have hplain := select_plain hwf hdir hselect
  refine (units_paths hunits fun source tree hparsed => path_of_loadAll hload hparsed).nodup ?_
  rw [loadAll_paths hload, List.nodup_iff_pairwise_ne, List.pairwise_map]
  refine (select_ascending hselect).imp_of_mem fun {place place'} hplace hplace' hlt heq => ?_
  obtain ⟨back, rfl⟩ := (hplain place hplace).below
  obtain ⟨back', rfl⟩ := (hplain place' hplace').below
  have hback : ∀ name ∈ back, IsName name := fun name hname =>
    (hplain _ hplace).names name (List.mem_append_right _ hname)
  have hback' : ∀ name ∈ back', IsName name := fun name hname =>
    (hplain _ hplace').names name (List.mem_append_right _ hname)
  rw [pathFrom, pathFrom, List.drop_left, List.drop_left] at heq
  have hsame : back = back' := by
    rw [← Analysis.pathSteps_intercalate hback, heq, Analysis.pathSteps_intercalate hback']
  rw [hsame] at hlt
  exact List.lt_irrefl _ hlt

end Project

/-! ## A project with links -/

namespace Sandbox

/-- A project with a link to one of its files, one that leads out of it and one to itself. -/
def linkedFiles : FileTree := .dir [
  ("etc", .dir [("passwd", .ofText "root")]),
  ("p", .dir [("a_spec.rb", .ofText "a.should b"),
    ("a_spec.rb.sexp", .ofText "(send @0..10 (a @0..1) :should (b))"),
    ("in", .link "a_spec.rb"), ("log", .dir [("old", .ofText "log")]),
    ("out", .link "/etc/passwd"), ("self", .link "self")]),
  ("tmp", .dir [])]

theorem wellFormed_linkedFiles : linkedFiles.WellFormed := by
  refine .dir (by decide) (by decide) ?_
  rintro _ (_ | ⟨_, _ | ⟨_, _ | ⟨_, ⟨⟩⟩⟩⟩)
  · refine .dir (by decide) (by decide) ?_
    rintro _ (_ | ⟨_, ⟨⟩⟩)
    exact .file _ _
  · refine .dir (by decide) (by decide) ?_
    rintro _ (_ | ⟨_, _ | ⟨_, _ | ⟨_, _ | ⟨_, _ | ⟨_, _ | ⟨_, ⟨⟩⟩⟩⟩⟩⟩⟩)
    · exact .file _ _
    · exact .file _ _
    · exact .link _
    · refine .dir (by decide) (by decide) ?_
      rintro _ (_ | ⟨_, ⟨⟩⟩)
      exact .file _ _
    · exact .link _
    · exact .link _
  · exact .dir (by decide) (by simp) (by simp)

theorem canonical_linkedFiles :
    linkedFiles.canonical [] (Location.path ["p", "in"]) = .ok ["p", "a_spec.rb"] ∧
      linkedFiles.canonical [] (Location.path ["p", "out"]) = .ok ["etc", "passwd"] := by
  have hstep : ∀ name ∈ ["p", "in", "out", "a_spec.rb", "etc", "passwd"], IsStep name :=
    fun name hname => ⟨by revert name; decide, by revert name; decide, by revert name; decide⟩
  constructor
  · rw [canonical_eq_ok_iff, startOf_path, pathNames_path (by decide) (by decide)]
    refine ⟨by rfl, .skip (.inl rfl) (.enter (hstep _ (by simp)) rfl
      (.through (hstep _ (by simp)) rfl ?_))⟩
    have hnames : pathNames "a_spec.rb" = ["a_spec.rb"] := by decide
    have hrelative : isAbsolute "a_spec.rb" = false := by cbv
    rw [hnames, hrelative]
    exact .reach (hstep _ (by simp)) rfl rfl
  · rw [canonical_eq_ok_iff, startOf_path, pathNames_path (by decide) (by decide)]
    refine ⟨by rfl, .skip (.inl rfl) (.enter (hstep _ (by simp)) rfl
      (.through (hstep _ (by simp)) rfl ?_))⟩
    have hnames : pathNames "/etc/passwd" = ["", "etc", "passwd"] := by decide
    have habsolute : isAbsolute "/etc/passwd" = true := by cbv
    rw [hnames, habsolute]
    exact .skip (.inl rfl) (.enter (hstep _ (by simp)) rfl (.reach (hstep _ (by simp)) rfl rfl))

/-- Its spec file has an expectation, which asks for a method. -/
theorem exists_tree_asking : ∃ t requests,
    Tree.ofDump "a_spec.rb" "a.should b" "(send @0..10 (a @0..1) :should (b))" = .ok t ∧
      Probe.collect t [.should] = .ok requests ∧ requests.isEmpty = false := by
  have hcheck : (Tree.ofDump "a_spec.rb" "a.should b" "(send @0..10 (a @0..1) :should (b))").map
      (fun t => (t.nodesInOrder, t.kind 2, t.methodName? 2, t.receiver? 2,
        (t.arguments 2).length, t.selector? 2)) =
      .ok ([2, 0, 1], "send", some "should", some 0, 1, some ⟨2, 8, by decide⟩) := by
    cbv
  obtain ⟨t, htree, hcheck⟩ := Tree.map_eq_ok_iff.mp hcheck
  simp only [Prod.mk.injEq] at hcheck
  obtain ⟨hnodes, hkind, hname, hreceiver, harguments, hselector⟩ := hcheck
  obtain ⟨tail, hshould⟩ :=
    Match.exists_should? hkind hname rfl hreceiver harguments hselector
  have hmatch : Match.at? t [.should] 2 = some (.should 2 0 tail false) := by
    simp [Match.at?, Match.ofRule?, hshould]
  obtain ⟨requests, hcollect, hholds⟩ := Probe.collect_eq_ok t [.should]
  exact ⟨t, requests, htree, hcollect,
    hholds.isEmpty_eq_false (List.mem_filterMap.mpr ⟨2, by simp [hnodes], hmatch⟩) rfl⟩

/-! ## A new sandbox -/

variable {host : Host} {files made : FileTree} {s : Sandbox} {path : String} {keep : Bool}
  {timeLimit : Nat} {environment : List (String × String)}

theorem workspace_of_create
    (h : create host files path keep timeLimit environment = .ok (s, made)) :
    files.canonical host.here path = .ok s.project ∧
      made.get? s.workspace = some (copyOf files s.project) := by
  obtain ⟨hproject, hnew, rfl⟩ := create_eq_ok h
  exact ⟨hproject, get?_set_entry (notes_done hnew).enclosed.hasDir "workspace"⟩

theorem enclosed_of_create
    (h : create host files path keep timeLimit environment = .ok (s, made)) :
    made.Enclosed s.workspace := by
  have hlinks := linkFree_copyOf files s.project
  have hget := (workspace_of_create h).2
  obtain ⟨entries, hdir⟩ : ∃ entries, copyOf files s.project = .dir entries := by
    unfold copyOf
    split <;> exact ⟨_, rfl⟩
  rw [hdir] at hlinks hget
  exact ⟨entries, hget, hlinks⟩

/-- A directory that does not hold the directory for temporary files holds no sandbox. -/
theorem project_apart (h : create host files path keep timeLimit environment = .ok (s, made))
    (hproject : files.HasDir s.project) (houtside : ¬ s.project <+: host.temporary) :
    ∀ place, s.project <+: place → ¬ s.home <+: place := by
  have hnew := (create_below h).1
  have hhome : ¬ files.HasDir s.home := by
    rintro ⟨entries, hget⟩
    rw [hnew.free] at hget
    cases hget
  obtain ⟨name, -, hname⟩ := hnew.exists_name
  intro place hbelow hhomeBelow
  rcases List.prefix_or_prefix_of_prefix hbelow hhomeBelow with hdown | hup
  · rw [hname] at hdown
    rcases List.prefix_concat_iff.mp hdown with heq | hdown
    · rw [hname, ← heq] at hhome
      exact hhome hproject
    · exact houtside hdown
  · exact hhome (hproject.of_above hup)

theorem names_of_create (hwf : files.WellFormed)
    (h : create host files path keep timeLimit environment = .ok (s, made)) :
    ∀ name ∈ s.workspace, IsName name := by
  have hnew := (create_below h).1
  obtain ⟨entries, htemporary⟩ := hnew.hasDir
  exact names_below (hnew.names (hwf.names htemporary)) (by decide)

theorem look?_workspace_iff (hwf : files.WellFormed)
    (h : create host files path keep timeLimit environment = .ok (s, made))
    (hproject : files.HasDir s.project) (place : Location) (x : FileTree) :
    made.look? (s.workspace ++ place) = some x ↔ Kept place ∧ Mirrors files s.project place x := by
  rw [← look?_copyOf_iff hwf hproject, look?, get?_append, (workspace_of_create h).2]
  rfl

theorem Mirrors.not_device {root place : Location} {kind : Device} :
    ¬ Mirrors files root place (.device kind) := by
  intro h
  cases h

/-- The workspace of a new sandbox shows the directories of the project that are not left out, the
files of it that are not left out, and in the place of links the files of the project that they lead
to in the end, so that all content comes from files of the project. The project is as it was, and
the instrumented sources of a run are written into the workspace and nowhere else, each in the place
that its path names. -/
theorem create_exact (hwf : files.WellFormed)
    (hcreate : create host files path keep timeLimit environment = .ok (s, made))
    (hproject : files.HasDir s.project) (houtside : ¬ s.project <+: host.temporary) :
    files.canonical host.here path = .ok s.project ∧
    (∀ place x, made.look? (s.workspace ++ place) = some x ↔
      Kept place ∧ Mirrors files s.project place x) ∧
    (∀ place content mode, made.get? (s.workspace ++ place) = some (.file content mode) →
      ∃ there, s.project <+: there ∧ files.get? there = some (.file content mode)) ∧
    SameOn (s.project <+: ·) files made ∧
    ∀ {host : Host} {settings : Settings} {d : Project.DumpSource} {request : Project.Request}
      {before now : FileTree} {root : Location} {loaded : List Project.Loaded}
      {us : List ProbedSource} {result : Except SandboxError Unit} {after : FileTree},
      before.WellFormed → before.HasDir [] →
      Project.read host settings d request before = (.ok (root, loaded), now) →
      Project.units settings.convert.rules loaded = .ok us →
      Analysis.instrumentAll s made us = (result, after) →
        SameOn (fun place => ¬ s.workspace <+: place) made after ∧
        SameOn (s.project <+: ·) files after ∧
        (result = .ok () → ∀ u ∈ us, u.requests.isEmpty = false →
          ∃ mode, after.get? (s.workspace ++ pathSteps u.tree.path) =
            some (.file (Utf8.encode (Probe.instrument u.tree u.requests).source) mode)) := by
  have hapart := project_apart hcreate hproject houtside
  have hlook := look?_workspace_iff hwf hcreate hproject
  have hspared : SameOn (s.project <+: ·) files made :=
    fun place hplace => (create_below hcreate).2.same place (hapart place hplace)
  refine ⟨(workspace_of_create hcreate).1, hlook, fun place content mode hfile => ?_, hspared, ?_⟩
  · exact ((hlook place _).mp ((look?_eq_some_iff_of_isLeaf rfl).mpr hfile)).2.exists_below
  intro host settings d request before now root loaded us result after hbefore hdir hread hunits
    hrun
  have hnames := names_of_create hwf hcreate
  have henclosed := enclosed_of_create hcreate
  have hdown := Project.pathDown_of_read hbefore hdir hread hunits
  have hbelow := Analysis.instrumentAll_done hdown henclosed fun content h hpath =>
    write_within hnames h hpath content
  rw [hrun] at hbelow
  refine ⟨hbelow.same, hspared.trans fun place hplace => hbelow.same place fun hworkspace => ?_, ?_⟩
  · exact hapart place hplace ((List.prefix_append ..).trans hworkspace)
  · rintro rfl u hu hasks
    have hdevices : ∀ back kind, made.look? (s.workspace ++ back) ≠ some (.device kind) :=
      fun back kind h => Mirrors.not_device ((hlook back _).mp h).2
    obtain ⟨-, hheld⟩ := Analysis.instrumentAll_puts hnames hdown
      (Project.nodup_paths_of_read hbefore hdir hread hunits) henclosed hdevices hrun
    obtain ⟨mode, hfile⟩ := hheld u hu hasks
    exact ⟨mode, (look?_eq_some_iff_of_isLeaf rfl).mp hfile⟩

/-- The links that lead out of the project and the logs have no place in the workspace. -/
theorem create_exact_linked :
    let host : Host := ⟨⟨fun _ _ _ => none, fun _ => .error .missing⟩, [], ["tmp"]⟩
    let settings : Settings := { convert := { rules := [.should] } }
    let request : Project.Request :=
      ⟨Location.path ["p"], [Location.path ["p", "a_spec.rb"]], false⟩
    ∃ s made loaded u after mode,
      create host linkedFiles (Location.path ["p"]) false 0 [] = .ok (s, made) ∧
      Project.read host settings .stored request linkedFiles =
        (.ok (["p"], loaded), linkedFiles) ∧
      Project.units settings.convert.rules loaded = .ok [u] ∧
      Analysis.instrumentAll s made [u] = (.ok (), after) ∧
      made.look? (s.workspace ++ ["in"]) = some (.ofText "a.should b") ∧
      made.look? (s.workspace ++ ["out"]) = none ∧
      made.look? (s.workspace ++ ["log", "old"]) = none ∧
      SameOn (["p"] <+: ·) linkedFiles after ∧
      after.get? (s.workspace ++ ["a_spec.rb"]) =
        some (.file (Utf8.encode (Probe.instrument u.tree u.requests).source) mode) := by
  intro host settings request
  obtain ⟨t, requests, htree, hcollect, hasks⟩ := exists_tree_asking
  obtain ⟨hin, hout⟩ := canonical_linkedFiles
  have hroot : linkedFiles.canonical [] (Location.path ["p"]) = .ok ["p"] := by
    rw [canonical_path (t := linkedFiles) (x := .dir _) rfl rfl (by decide) (by decide) [],
      fits_of_toBool (by decide)]
    rfl
  obtain ⟨s, made, hcreate, hs, hsproject⟩ : ∃ s made,
      create host linkedFiles (Location.path ["p"]) false 0 [] = .ok (s, made) ∧
        s.workspace = ["tmp", "respec_sandbox_0", "workspace"] ∧ s.project = ["p"] := by
    have hfresh : host.freshPlace linkedFiles "respec_sandbox_" =
      .ok ["tmp", "respec_sandbox_0"] := by rfl
    have hroot' : linkedFiles.canonical host.here (Location.path ["p"]) = .ok ["p"] := hroot
    simp only [create, hroot', hfresh]
    exact ⟨_, _, rfl, rfl, rfl⟩
  have hsource : Utf8.text? (Utf8.encode "a.should b") = some "a.should b" := by
    rw [Utf8.encode_eq_bytes]
    decide +kernel
  have hdump : Utf8.text? (Utf8.encode "(send @0..10 (a @0..1) :should (b))") =
      some "(send @0..10 (a @0..1) :should (b))" := by
    rw [Utf8.encode_eq_bytes]
    decide +kernel
  have hbeside : Location.path ["p", "a_spec.rb"] ++ "." ++ Project.DumpSource.extension =
      Location.path ["p", "a_spec.rb.sexp"] := by decide
  have hread : Project.read host settings .stored request linkedFiles =
      (.ok (["p"], [.parsed ⟨"a_spec.rb", ["p", "a_spec.rb"], "a.should b",
        Digest.sha256 (Utf8.encode "a.should b")⟩ t]), linkedFiles) :=
    Project.read_stored hroot (List.prefix_append ["p"] ["a_spec.rb"]) rfl rfl hbeside (by decide)
      (by decide) (by decide) (by decide) (fits_of_toBool (by decide))
      (fits_of_toBool (by decide)) hsource hdump htree false
  have hunits : ∀ source,
      Project.units settings.convert.rules [.parsed source t] = .ok [⟨t, requests⟩] := by
    intro source
    rw [Project.units, hcollect]
    rfl
  have hproject : linkedFiles.HasDir s.project := by
    rw [hsproject]
    exact ⟨_, rfl⟩
  have houtside : ¬ s.project <+: host.temporary := by
    rw [hsproject]
    decide
  obtain ⟨-, hlook, -, -, hrun⟩ := create_exact wellFormed_linkedFiles hcreate hproject houtside
  rw [hsproject] at hlook hrun
  have hspec : made.look? (s.workspace ++ ["a_spec.rb"]) = some (.ofText "a.should b") :=
    (hlook _ _).mpr ⟨by decide, .file rfl⟩
  have hall : ∃ after,
      Analysis.instrumentAll s made [⟨t, requests⟩] = (.ok (), after) := by
    have hfile := (look?_eq_some_iff_of_isLeaf rfl).mp hspec
    have hpath : t.path = String.intercalate "/" ["a_spec.rb"] := Tree.path_of_ofDump htree
    have hnames := names_of_create wellFormed_linkedFiles hcreate
    have hwrite := write_over hnames (List.cons_ne_nil _ _) (by decide) hfile rfl
      (by rw [hs]; exact fits_of_toBool (by decide)) (by rw [hs]; exact fits_of_toBool (by decide))
      (Probe.instrument t requests).source
    simp only [Analysis.instrumentAll, hasks, hpath, hwrite, Bool.false_eq_true, if_false]
    exact ⟨_, rfl⟩
  obtain ⟨after, hall⟩ := hall
  obtain ⟨-, hsame, hwritten⟩ :=
    hrun wellFormed_linkedFiles ⟨_, rfl⟩ hread (hunits _) hall
  obtain ⟨mode, hmode⟩ := hwritten rfl _ List.mem_cons_self hasks
  refine ⟨s, made, _, _, after, mode, hcreate, hread, hunits _, hall, ?_, ?_, ?_, hsame, ?_⟩
  · exact (hlook _ _).mpr ⟨by decide, .link rfl hin (by decide) rfl⟩
  · refine Option.eq_none_iff_forall_ne_some.mpr fun x hx => ?_
    cases ((hlook _ _).mp hx).2 with
    | dir hdir =>
      obtain ⟨entries, hget⟩ := hdir
      cases hget
    | file hfile => cases hfile
    | link hlink hleads hbelow hfile =>
      -- the link leads to a file, but to none of the project
      obtain rfl := Except.ok.inj (hout.symm.trans hleads)
      revert hbelow
      decide
  · refine Option.eq_none_iff_forall_ne_some.mpr fun x hx => ?_
    exact absurd ((hlook _ _).mp hx).1 (by decide)
  · have hpath : pathSteps t.path = ["a_spec.rb"] := by
      rw [Tree.path_of_ofDump htree]
      decide
    rw [← hpath]
    exact hmode

end Sandbox

end SpecUpgrade
