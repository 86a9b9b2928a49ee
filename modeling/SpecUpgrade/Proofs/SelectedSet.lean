import SpecUpgrade.Proofs.Workspace

/-!
The paths of a request count as a set. Requests that are joined select what each of them selects, and
nothing depends on the order of the paths, on their repetition or on the links through which they
lead to a place.
-/

namespace SpecUpgrade.Project

open FileTree

variable {files : FileTree} {root : Location} {suffix : String} {p q paths : List String}

def place? (files : FileTree) (root : Location) (path : String) : Option Location :=
  (files.canonical root (joinPath (Location.path root) path)).toOption

theorem place?_eq_some_iff {path : String} {place : Location} :
    place? files root path = some place ↔
      files.canonical root (joinPath (Location.path root) path) = .ok place := by
  unfold place?
  cases files.canonical root (joinPath (Location.path root) path) <;> simp [Except.toOption]

theorem place?_path (place : Location) : place? files root (Location.path place) =
    (files.canonical [] (Location.path place)).toOption := by
  rw [place?, joinPath_of_isAbsolute (isAbsolute_path place), canonical, canonical, startOf_path,
    startOf_path]

theorem requested_of_ne_nil (hp : p ≠ []) :
    requested root p = p.map (joinPath (Location.path root)) := by
  rw [requested, if_neg (by simpa using hp)]

/-- A request succeeds when each of its paths leads to a place of the project. -/
theorem exists_select_iff_place? (hp : p ≠ []) :
    (∃ out, select files root p suffix = .ok out) ↔
      ∀ found ∈ p.map (place? files root), ∃ place ∈ found, root <+: place := by
  simp only [exists_select_iff, requested_of_ne_nil hp, List.forall_mem_map, Option.mem_def,
    place?_eq_some_iff]

theorem selected_iff_place? (hp : p ≠ []) {found : Location} :
    Selected files root suffix p found ↔
      ∃ place, some place ∈ p.map (place? files root) ∧ StandsFor files root suffix place found := by
  simp only [Selected, requested_of_ne_nil hp, List.mem_map, place?_eq_some_iff]
  constructor
  · rintro ⟨_, ⟨path, hpath, rfl⟩, place, hcanonical, hstands⟩
    exact ⟨place, ⟨path, hpath, hcanonical⟩, hstands⟩
  · rintro ⟨place, ⟨path, hpath, hcanonical⟩, hstands⟩
    exact ⟨_, ⟨path, hpath, rfl⟩, place, hcanonical, hstands⟩

theorem selected_append (hp : p ≠ []) (hq : q ≠ []) {found : Location} :
    Selected files root suffix (p ++ q) found ↔
      Selected files root suffix p found ∨ Selected files root suffix q found := by
  have hpq : p ++ q ≠ [] := by simp [hp]
  simp only [selected_iff_place? hp, selected_iff_place? hq, selected_iff_place? hpq,
    List.map_append, List.mem_append, or_and_right, exists_or]

/-- A directory stands for all that the directories below it stand for. -/
theorem StandsFor.of_below {outer place found : Location}
    (h : StandsFor files root suffix place found) (houter : files.HasDir outer)
    (hplace : files.HasDir place) (hbelow : outer <+: place) :
    StandsFor files root suffix outer found := by
  cases h with
  | file hfile => exact absurd hplace (not_hasDir_of_isLeaf hfile rfl)
  | below _ hfound hfile hsuffix hkept =>
    exact .below houter (hbelow.trans hfound) hfile hsuffix hkept

section

variable (hwf : files.WellFormed) (hdir : files.HasDir [])
include hwf hdir

/-- Only the places count to which the paths of a request lead. -/
theorem select_toOption_congr (hp : p ≠ []) (hq : q ≠ [])
    (hsame : ∀ place, place ∈ p.map (place? files root) ↔ place ∈ q.map (place? files root)) :
    (select files root p suffix).toOption = (select files root q suffix).toOption := by
  have hlead : (∃ out, select files root p suffix = .ok out) ↔
      ∃ out, select files root q suffix = .ok out := by
    simp only [exists_select_iff_place? hp, exists_select_iff_place? hq, hsame]
  cases ha : select files root p suffix with
  | error e =>
    cases hb : select files root q suffix with
    | error e' => rfl
    | ok b =>
      obtain ⟨a, ha'⟩ := hlead.mpr ⟨b, hb⟩
      cases ha.symm.trans ha'
  | ok a =>
    obtain ⟨b, hb⟩ := hlead.mp ⟨a, ha⟩
    have hab : a = b := select_congr hwf hdir ha hb fun found => by
      simp only [selected_iff_place? hp, selected_iff_place? hq, hsame]
    rw [hb, hab]

/-- Directories below those of a request add nothing to it. -/
theorem select_append_below (hp : p ≠ []) (hq : q ≠ []) {places : List Location}
    (h : select files root p suffix = .ok places)
    (hbelow : ∀ path ∈ q, ∃ place ∈ place? files root path, files.HasDir place ∧
      ∃ path' ∈ p, ∃ outer ∈ place? files root path', files.HasDir outer ∧ outer <+: place) :
    select files root (p ++ q) suffix = .ok places := by
  have hpq : p ++ q ≠ [] := by simp [hp]
  have hlead := (exists_select_iff_place? hp).mp ⟨places, h⟩
  have hlead' : ∃ b, select files root q suffix = .ok b := by
    rw [exists_select_iff_place? hq, List.forall_mem_map]
    intro path hpath
    obtain ⟨place, hplace, -, path', hpath', outer, houter, -, hinside⟩ := hbelow path hpath
    obtain ⟨outer', houter', hroot⟩ := hlead _ (List.mem_map_of_mem hpath')
    obtain rfl := Option.mem_unique houter houter'
    exact ⟨place, hplace, hroot.trans hinside⟩
  obtain ⟨out, hout⟩ : ∃ out, select files root (p ++ q) suffix = .ok out := by
    rw [exists_select_iff_place? hpq, List.map_append, List.forall_mem_append]
    exact ⟨hlead, (exists_select_iff_place? hq).mp hlead'⟩
  have hsame : out = places := select_congr hwf hdir hout h fun found => by
    rw [selected_append hp hq, or_iff_left_iff_imp, selected_iff_place? hq, selected_iff_place? hp]
    rintro ⟨place, hplace, hstands⟩
    obtain ⟨path, hpath, hleads⟩ := List.mem_map.mp hplace
    obtain ⟨place', hplace', hdirectory, path', hpath', outer, houter, houterdir, hinside⟩ :=
      hbelow path hpath
    obtain rfl := Option.mem_unique hplace' hleads
    exact ⟨outer, List.mem_map.mpr ⟨path', hpath', houter⟩,
      hstands.of_below houterdir hdirectory hinside⟩
  rw [hout, hsame]

end

/-- Selecting is an operation on sets. Joined requests succeed when both do, and select the union in
order and each place once. Requests whose paths lead to the same places select the same, and
directories below those of a request add nothing to it. All that is selected are files of the project:
named ones, and spec files below named directories that are not left out; and none is written
twice. -/
theorem select_as_set (hwf : files.WellFormed) (hroot : files.HasDir root) (suffix : String)
    (hp : p ≠ []) (hq : q ≠ []) :
    let run := fun paths => select files root paths suffix
    ((∃ out, run (p ++ q) = .ok out) ↔ (∃ a, run p = .ok a) ∧ ∃ b, run q = .ok b) ∧
      (∀ a b out, run p = .ok a → run q = .ok b → run (p ++ q) = .ok out →
        out.Pairwise (· < ·) ∧ ∀ found, found ∈ out ↔ found ∈ a ∨ found ∈ b) ∧
      ((∀ place, place ∈ p.map (place? files root) ↔ place ∈ q.map (place? files root)) →
        (run p).toOption = (run q).toOption) ∧
      (∀ a, run p = .ok a →
        (∀ path ∈ q, ∃ place ∈ place? files root path, files.HasDir place ∧
          ∃ path' ∈ p, ∃ outer ∈ place? files root path', files.HasDir outer ∧ outer <+: place) →
        run (p ++ q) = .ok a) ∧
      ∀ paths out, run paths = .ok out →
        (∀ found ∈ out, root <+: found ∧
          ∃ content mode, files.get? found = some (.file content mode)) ∧
        (∀ found, found ∈ out ↔ Selected files root suffix paths found) ∧
        ∀ host d loaded files', loadAll host d root files out = (.ok loaded, files') →
          ∀ rules facts, ((changes rules facts loaded).map (·.1.place)).Pairwise (· < ·) := by
  have hdir : files.HasDir [] := hroot.of_above List.nil_prefix
  have hpq : p ++ q ≠ [] := by simp [hp]
  intro run
  refine ⟨?_, ?_, ?_, ?_, ?_⟩
  · simp only [run, exists_select_iff_place? hp, exists_select_iff_place? hq,
      exists_select_iff_place? hpq, List.map_append, List.forall_mem_append]
  · intro a b out ha hb hout
    refine ⟨select_ascending hout, fun found => ?_⟩
    rw [mem_select_iff hwf hdir hout, mem_select_iff hwf hdir ha, mem_select_iff hwf hdir hb,
      selected_append hp hq]
  · exact select_toOption_congr hwf hdir hp hq
  · intro a ha hbelow
    exact select_append_below hwf hdir hp hq ha hbelow
  · intro paths out hout
    refine ⟨fun found hfound => exists_file_of_mem_select hwf hdir hout hfound,
      fun found => mem_select_iff hwf hdir hout, fun host d loaded files' hload rules facts => ?_⟩
    have hplaces := ((changes_sublist rules facts loaded).map Source.place).trans
      (loadAll_places hload)
    rw [List.map_map] at hplaces
    exact (select_ascending hout).sublist hplaces

/-- A link of the project selects the file that it leads to, also beside another file. -/
theorem select_as_set_linked :
    Sandbox.linkedFiles.WellFormed ∧ Sandbox.linkedFiles.HasDir ["p"] ∧
      let run := fun paths => select Sandbox.linkedFiles ["p"] paths "_spec.rb"
      run [Location.path ["p", "a_spec.rb"]] = .ok [["p", "a_spec.rb"]] ∧
        run [Location.path ["p", "in"]] = .ok [["p", "a_spec.rb"]] ∧
        run [Location.path ["p", "log", "old"]] = .ok [["p", "log", "old"]] ∧
        run ([Location.path ["p", "log", "old"]] ++ [Location.path ["p", "in"]]) =
          .ok [["p", "a_spec.rb"], ["p", "log", "old"]] := by
  have hwf := Sandbox.wellFormed_linkedFiles
  have hroot : Sandbox.linkedFiles.HasDir ["p"] := ⟨_, rfl⟩
  refine ⟨hwf, hroot, ?_⟩
  intro run
  have hnamed : run [Location.path ["p", "a_spec.rb"]] = .ok [["p", "a_spec.rb"]] :=
    select_path "_spec.rb" rfl rfl (by decide) (by decide) (List.prefix_append ["p"] ["a_spec.rb"])
      (fits_of_toBool (by decide))
  have hold : run [Location.path ["p", "log", "old"]] = .ok [["p", "log", "old"]] :=
    select_path "_spec.rb" rfl rfl (by decide) (by decide) (List.prefix_append ["p"] ["log", "old"])
      (fits_of_toBool (by decide))
  have hplace : ∀ path ∈ [Location.path ["p", "in"], Location.path ["p", "a_spec.rb"]],
      place? Sandbox.linkedFiles ["p"] path = some ["p", "a_spec.rb"] := by
    intro path hpath
    rcases List.mem_pair.mp hpath with rfl | rfl
    · rw [place?_path, Sandbox.canonical_linkedFiles.1]
      rfl
    · rw [place?_path, canonical_path (x := .ofText "a.should b") rfl rfl (by decide) (by decide),
        fits_of_toBool (by decide)]
      rfl
  have hlinked : run [Location.path ["p", "in"]] = .ok [["p", "a_spec.rb"]] := by
    obtain ⟨-, -, hcongr, -⟩ := select_as_set hwf hroot "_spec.rb"
      (p := [Location.path ["p", "in"]]) (q := [Location.path ["p", "a_spec.rb"]]) (by simp) (by simp)
    have hsame : (run [Location.path ["p", "in"]]).toOption =
        (run [Location.path ["p", "a_spec.rb"]]).toOption := hcongr (by simp [hplace])
    rw [hnamed] at hsame
    cases hrun : run [Location.path ["p", "in"]] with
    | error e =>
      rw [hrun] at hsame
      cases hsame
    | ok out =>
      rw [hrun] at hsame
      exact congrArg Except.ok (Option.some.inj hsame)
  refine ⟨hnamed, hlinked, hold, ?_⟩
  obtain ⟨hboth, hunion, -⟩ := select_as_set hwf hroot "_spec.rb"
    (p := [Location.path ["p", "log", "old"]]) (q := [Location.path ["p", "in"]]) (by simp) (by simp)
  obtain ⟨out, hout⟩ := hboth.mpr ⟨⟨_, hold⟩, _, hlinked⟩
  obtain ⟨hascending, hmem⟩ := hunion _ _ out hold hlinked hout
  have hpair : ([["p", "a_spec.rb"], ["p", "log", "old"]] : List Location).Pairwise (· < ·) := by
    decide
  rw [hascending.eq_of_mem_iff hpair fun found => by rw [hmem]; simp [or_comm]] at hout
  exact hout

end SpecUpgrade.Project
