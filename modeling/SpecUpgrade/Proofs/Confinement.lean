import SpecUpgrade.Proofs.Places
import SpecUpgrade.Sandbox.Analysis

/-!
What a sandbox does to the files. Its home is a directory of its own without links, so that all
paths that lead into it stay in it, and whatever is written before a command is run is written there.
-/

namespace SpecUpgrade

namespace FileTree

/-! ## Directories without links -/

variable {t t' new : FileTree} {home place front back : Location}

/-- No link stands anywhere in a tree. -/
def LinkFree (t : FileTree) : Prop := ∀ place target, t.get? place ≠ some (.link target)

theorem linkFree_of_isLeaf (h : t.isLeaf = true) : LinkFree t := by
  intro place target hget
  cases place with
  | nil =>
    cases hget
    cases h
  | cons name place =>
    obtain ⟨entries, -, rfl, -, -⟩ := get?_cons_eq_some hget
    cases h

theorem linkFree_dir {entries : List (String × FileTree)} (h : ∀ e ∈ entries, LinkFree e.2) :
    LinkFree (.dir entries) := by
  intro place target hget
  cases place with
  | nil => cases hget
  | cons name place =>
    obtain ⟨_, below, hentries, hfound, hget⟩ := get?_cons_eq_some hget
    obtain rfl := FileTree.dir.inj hentries
    exact h _ (SortedMap.mem_of_find? hfound) place target hget

theorem linkFree_empty : LinkFree (.dir []) := linkFree_dir (by simp)

/-- What stands below a place of a tree without links has none. -/
theorem LinkFree.of_get? {x : FileTree} (h : LinkFree t) (hget : t.get? place = some x) :
    LinkFree x := by
  intro there target hthere
  exact h (place ++ there) target (by rw [get?_append, hget]; exact hthere)

theorem LinkFree.set (h : LinkFree t) (hnew : LinkFree new) (place : Location) :
    LinkFree (set new t place) := by
  induction place generalizing t with
  | nil => exact hnew
  | cons name place ih =>
    cases t with
    | dir entries =>
      have hbelow : LinkFree ((SortedMap.find? name entries).getD (.dir [])) := by
        cases hfound : SortedMap.find? name entries with
        | none => exact linkFree_empty
        | some below =>
          have hget : (FileTree.dir entries).get? [name] = some below := by simp [get?, hfound]
          exact h.of_get? hget
      intro there target hget
      cases there with
      | nil => cases hget
      | cons name' there =>
        rw [FileTree.set, get?, SortedMap.find?_insert] at hget
        by_cases hname : name' = name
        · rw [if_pos hname] at hget
          exact ih hbelow there target hget
        · rw [if_neg hname] at hget
          exact h (name' :: there) target hget
    | _ => exact h

/-- A directory without links. -/
def Enclosed (t : FileTree) (home : Location) : Prop :=
  ∃ entries, t.get? home = some (.dir entries) ∧ LinkFree (.dir entries)

theorem Enclosed.hasDir (h : t.Enclosed home) : t.HasDir home := by
  obtain ⟨entries, hget, -⟩ := h
  exact ⟨entries, hget⟩

theorem Enclosed.not_link (h : t.Enclosed home) (back : Location) (target : String) :
    t.get? (home ++ back) ≠ some (.link target) := by
  obtain ⟨entries, hget, hfree⟩ := h
  rw [get?_append, hget]
  exact hfree back target

theorem Enclosed.set (h : t.Enclosed home) (hnew : LinkFree new) (hback : back ≠ []) :
    (FileTree.set new t (home ++ back)).Enclosed home := by
  obtain ⟨entries, hget, hfree⟩ := h
  have hset : (FileTree.set new t (home ++ back)).get? home = some (FileTree.set new _ back) :=
    get?_set_of_some hget
  have hfree' := hfree.set hnew back
  cases back with
  | nil => exact absurd rfl hback
  | cons name back => exact ⟨_, hset, hfree'⟩

/-! ## Paths into a directory without links -/

/-- Names without steps upwards lead from a place below the home to another. -/
theorem Enclosed.leads_below (h : t.Enclosed home) {links : Nat} {there : Location}
    {names : List String} (hnames : ".." ∉ names)
    (hleads : Leads t links (home ++ back) names there) : home <+: there := by
  generalize hhere : home ++ back = here at hleads
  induction hleads generalizing back with
  | stay => exact ⟨back, hhere⟩
  | skip _ _ ih => exact ih (fun h => hnames (List.mem_cons_of_mem _ h)) hhere
  | up => exact absurd List.mem_cons_self hnames
  | @enter _ here _ name _ _ _ _ _ ih =>
    have hnext : home ++ (back ++ [name]) = here ++ [name] := by rw [← hhere, List.append_assoc]
    exact ih (fun h => hnames (List.mem_cons_of_mem _ h)) hnext
  | @reach _ here name => exact ⟨back ++ [name], by rw [← hhere, List.append_assoc]⟩
  | @through _ here _ name target _ _ hget =>
    rw [← hhere, List.append_assoc] at hget
    exact absurd hget (h.not_link _ _)

/-- Names of directories are followed one after the other. -/
theorem Leads.through_dirs {links : Nat} {here there : Location} {names : List String}
    (hfront : ∀ name ∈ front, IsName name) (hdir : t.HasDir (here ++ front))
    (h : Leads t links here (front ++ names) there) : Leads t links (here ++ front) names there := by
  induction front generalizing here with
  | nil => rwa [List.append_nil]
  | cons name front ih =>
    have hname := hfront name (by simp)
    have hstep : t.HasDir (here ++ [name]) :=
      hdir.of_above ⟨front, by rw [List.append_assoc, List.singleton_append]⟩
    have hassoc : here ++ name :: front = (here ++ [name]) ++ front := by simp
    rw [hassoc] at hdir ⊢
    obtain ⟨entries, hget⟩ := hstep
    rw [List.cons_append] at h
    generalize hrest : front ++ names = rest at h
    cases h with
    | skip hskip => exact (hskip.elim hname.not_empty hname.not_same).elim
    | up => exact absurd rfl hname.not_up
    | enter _ _ hleads => exact ih (fun n hn => hfront n (by simp [hn])) hdir (hrest ▸ hleads)
    | reach _ hleaf hx =>
      rw [hget] at hleaf
      cases hleaf
      cases hx
    | through _ hlink =>
      rw [hget] at hlink
      cases hlink

/-- The names of a path go through the home, and from there down to something. -/
structure Inside (home : Location) (path : String) (more : List String) : Prop where
  names_eq : pathNames path = "" :: (home ++ more)
  not_up : ".." ∉ more
  named : ∃ name ∈ more, name ≠ ""

/-- Without empty names at the end, a name behind the home is left. -/
theorem Inside.trimmed_eq {path : String} {more : List String} (h : Inside home path more) :
    ∃ kept last, trimmed path = "" :: (home ++ kept) ++ [last] ∧ ∀ name ∈ kept, name ∈ more := by
  obtain ⟨name, hname, hnonempty⟩ := h.named
  let rest := more.reverse.dropWhile (· == "")
  have hrest : rest ≠ [] := by
    intro hnil
    have hsplit := List.takeWhile_append_dropWhile (p := (· == "")) (l := more.reverse)
    have hempty := List.all_takeWhile (p := (· == "")) (l := more.reverse)
    rw [show more.reverse.dropWhile (· == "") = [] from hnil, List.append_nil] at hsplit
    rw [hsplit] at hempty
    exact hnonempty
      (by simpa using List.all_eq_true.mp hempty name (List.mem_reverse.mpr hname))
  have hmem : ∀ n ∈ rest, n ∈ more := fun n hn =>
    List.mem_reverse.mp ((List.dropWhile_sublist _).mem hn)
  have htrimmed : trimmed path = "" :: (home ++ rest.reverse) := by
    have hempty : (more.reverse.dropWhile (· == "")).isEmpty = false :=
      List.isEmpty_eq_false_iff.mpr hrest
    rw [trimmed, h.names_eq, ← List.cons_append, List.reverse_append, List.dropWhile_append,
      hempty, if_neg Bool.false_ne_true, List.reverse_append, List.reverse_reverse,
      List.cons_append]
  have hreverse : rest.reverse ≠ [] := fun hnil => hrest (List.reverse_eq_nil_iff.mp hnil)
  refine ⟨rest.reverse.dropLast, rest.reverse.getLast hreverse, ?_, fun n hn => ?_⟩
  · rw [htrimmed, List.cons_append, List.append_assoc, List.dropLast_concat_getLast]
  · exact hmem n (List.mem_reverse.mp (List.dropLast_subset _ hn))

/-- The directory in which something is made or written by such a path is the home or below it. -/
theorem Enclosed.parentOf_below (h : t.Enclosed home) (hhome : ∀ name ∈ home, IsName name)
    {path : String} {name? : Option String} {more : List String} (hpath : Inside home path more)
    {here parent : Location} (hparent : t.parentOf here path = .ok (parent, name?))
    (hstart : startOf here path = []) : home <+: parent := by
  obtain ⟨-, hleads, -, -⟩ := parentOf_eq_ok hparent
  obtain ⟨kept, last, htrimmed, hkept⟩ := hpath.trimmed_eq
  rw [htrimmed, List.dropLast_concat, hstart] at hleads
  have hrest : Leads t _ ([] ++ home) kept parent := hleads.of_empty.through_dirs hhome h.hasDir
  rw [List.nil_append, ← List.append_nil home] at hrest
  exact h.leads_below (fun hup => hpath.not_up (hkept _ hup)) hrest

/-- In a directory without links a file is written under the name that is found for it. -/
theorem Enclosed.filePlace_eq_ok (h : t.Enclosed home) {here parent place : Location}
    {path : String} {name? : Option String} (hbelow : home <+: parent)
    (hparent : t.parentOf here path = .ok (parent, name?))
    (hplace : t.filePlace here path = .ok place) :
    ∃ name, name? = some name ∧ place = parent ++ [name] ∧ ¬ t.HasDir place := by
  obtain ⟨back, rfl⟩ := hbelow
  rw [filePlace, filePlaceFrom, hparent] at hplace
  cases name? with
  | none => cases hplace
  | some name =>
    have hlink := h.not_link (back ++ [name])
    rw [← List.append_assoc] at hlink
    simp only at hplace
    split at hplace
    · cases hplace
    · split at hplace
      · cases hplace
      · cases hplace
      · rename_i hget _
        exact absurd hget (hlink _)
      · rename_i hdir _ _
        obtain rfl := Except.ok.inj hplace
        refine ⟨name, rfl, rfl, ?_⟩
        rintro ⟨entries, hget⟩
        exact hdir entries hget

/-- What is written by such a path is written below the home. -/
theorem Enclosed.filePlace_below (h : t.Enclosed home) (hhome : ∀ name ∈ home, IsName name)
    {path : String} {more : List String} (hpath : Inside home path more) {here place : Location}
    (hplace : t.filePlace here path = .ok place) (hstart : startOf here path = []) :
    ∃ back, back ≠ [] ∧ place = home ++ back := by
  cases hparent : t.parentOf here path with
  | error e => simp [filePlace, filePlaceFrom, hparent] at hplace
  | ok found =>
    obtain ⟨parent, name?⟩ := found
    have hbelow := h.parentOf_below hhome hpath hparent hstart
    obtain ⟨name, -, rfl, -⟩ := h.filePlace_eq_ok hbelow hparent hplace
    obtain ⟨back, rfl⟩ := hbelow
    exact ⟨back ++ [name], by simp, List.append_assoc ..⟩

/-- What is made by such a path is made below the home. -/
theorem Enclosed.place_below (h : t.Enclosed home) (hhome : ∀ name ∈ home, IsName name)
    {path : String} {more : List String} (hpath : Inside home path more) {here : Location}
    (hplace : FileTree.place new t here path = .ok t') (hstart : startOf here path = []) :
    ∃ back, back ≠ [] ∧ t' = FileTree.set new t (home ++ back) := by
  unfold FileTree.place at hplace
  cases hparent : t.parentOf here path with
  | error e => simp [hparent] at hplace
  | ok found =>
    obtain ⟨parent, name?⟩ := found
    obtain ⟨back, rfl⟩ := h.parentOf_below hhome hpath hparent hstart
    rw [hparent] at hplace
    cases name? with
    | none => cases hplace
    | some name =>
      simp only at hplace
      split at hplace
      · cases hplace
      · obtain rfl := Except.ok.inj hplace
        exact ⟨back ++ [name], by simp, by rw [List.append_assoc]⟩

/-! ## Forms of paths -/

theorem inside_path (hback : back ≠ []) (h : ∀ name ∈ home ++ back, IsName name) :
    Inside home (Location.path (home ++ back)) back := by
  refine ⟨pathNames_path (by simp [hback]) h, fun hup => ?_, ?_⟩
  · exact (h ".." (List.mem_append_right _ hup)).not_up rfl
  · obtain ⟨name, hname⟩ := List.exists_mem_of_ne_nil _ hback
    exact ⟨name, hname, (h name (List.mem_append_right _ hname)).not_empty⟩

theorem pathNames_append_slash (a b : String) :
    pathNames (a ++ "/" ++ b) = pathNames a ++ pathNames b := by
  have hlist : (a ++ "/" ++ b).toList = a.toList ++ '/' :: b.toList := by
    simp [String.toList_append]
  rw [pathNames, pathNames, pathNames, hlist, List.splitOn, List.splitOnP_append_cons _ _ (by simp),
    List.map_append]
  rfl

/-- A path that is relative to a place has the names that it was put together from. -/
theorem pathNames_intercalate {names : List String} (hne : names ≠ [])
    (h : ∀ name ∈ names, IsName name) : pathNames (String.intercalate "/" names) = names := by
  have hpath := pathNames_path hne h
  have hsplit : Location.path names = "" ++ "/" ++ String.intercalate "/" names := by
    simp [Location.path]
  rw [hsplit, pathNames_append_slash] at hpath
  have hempty : pathNames "" = [""] := by decide
  rw [hempty] at hpath
  exact List.append_cancel_left hpath

theorem isAbsolute_intercalate {names : List String} (h : ∀ name ∈ names, IsName name) :
    isAbsolute (String.intercalate "/" names) = false := by
  rw [isAbsolute, String.startsWith_string_eq_false_iff, String.toList_intercalate]
  rintro ⟨rest, hrest⟩
  cases names with
  | nil => simp [List.intercalate] at hrest
  | cons name names =>
    have hname := h name (by simp)
    cases hchars : name.toList with
    | nil => exact hname.not_empty (by simpa using hchars)
    | cons c cs =>
      have hfirst : '/' = c := by
        cases names with
        | nil => exact (by simpa [List.intercalate, hchars] using hrest : _ ∧ _).1
        | cons next names => exact (by simpa [List.intercalate, hchars] using hrest : _ ∧ _).1
      exact hname.no_slash (by rw [hchars, ← hfirst]; exact List.mem_cons_self)

theorem joinPath_path (hne : place ≠ []) (hplace : ∀ name ∈ place, IsName name)
    {names : List String} (h : ∀ name ∈ names, IsName name) :
    joinPath (Location.path place) (String.intercalate "/" names) =
      Location.path place ++ "/" ++ String.intercalate "/" names := by
  obtain ⟨front, last, rfl⟩ : ∃ front last, place = front ++ [last] :=
    ⟨place.dropLast, place.getLast hne, (List.dropLast_concat_getLast hne).symm⟩
  have hnonempty : (Location.path (front ++ [last])).isEmpty = false := by
    simp [Location.path, ← String.toList_inj]
  rw [joinPath, isAbsolute_intercalate h, hnonempty,
    endsWith_slash_path (hplace last (by simp))]
  rfl

theorem pathNames_join (hne : place ≠ []) (hplace : ∀ name ∈ place, IsName name)
    {names : List String} (h : ∀ name ∈ names, IsName name) :
    pathNames (joinPath (Location.path place) (String.intercalate "/" names)) =
      "" :: (place ++ pathNames (String.intercalate "/" names)) := by
  rw [joinPath_path hne hplace h, pathNames_append_slash, pathNames_path hne hplace,
    List.cons_append]

/-- A relative path from a place below the home leads into it. -/
theorem inside_join (hback : back ≠ []) (hplace : ∀ name ∈ home ++ back, IsName name)
    {names : List String} (h : ∀ name ∈ names, IsName name) :
    ∃ more, Inside home (joinPath (Location.path (home ++ back)) (String.intercalate "/" names))
        more ∧ ∀ name ∈ more, name = "" ∨ IsName name := by
  have hrest : ∀ name ∈ pathNames (String.intercalate "/" names), name = "" ∨ IsName name := by
    by_cases hempty : names = []
    · subst hempty
      decide
    · rw [pathNames_intercalate hempty h]
      exact fun name hname => .inr (h name hname)
  have hmore : ∀ name ∈ back ++ pathNames (String.intercalate "/" names),
      name = "" ∨ IsName name := by
    intro name hname
    rcases List.mem_append.mp hname with hname | hname
    · exact .inr (hplace name (List.mem_append_right _ hname))
    · exact hrest name hname
  refine ⟨_, ⟨?_, fun hup => ?_, ?_⟩, hmore⟩
  · rw [pathNames_join (by simp [hback]) hplace h, List.append_assoc]
  · exact (hmore _ hup).elim (by decide) fun hname => hname.not_up rfl
  · obtain ⟨name, hname⟩ := List.exists_mem_of_ne_nil _ hback
    exact ⟨name, List.mem_append_left _ hname,
      (hplace name (List.mem_append_right _ hname)).not_empty⟩

theorem pathSteps_eq {path : String} {more : List String}
    (hnames : pathNames path = "" :: (home ++ more)) (hhome : ∀ name ∈ home, IsName name) :
    pathSteps path = home ++ more.filter fun name => name != "" && name != "." := by
  have hkept : home.filter (fun name => name != "" && name != ".") = home :=
    List.filter_eq_self.mpr fun name hname => by
      simp [(hhome name hname).not_empty, (hhome name hname).not_same]
  rw [pathSteps, hnames, List.filter_cons_of_neg (by simp), List.filter_append, hkept]

/-! ## Changes below a directory without links -/

/-- What was done from one state to another was done below the home. -/
structure DoneBelow (home : Location) (t t' : FileTree) : Prop where
  enclosed : t'.Enclosed home
  same : SameOn (fun place => ¬ home <+: place) t t'

namespace DoneBelow

variable {t'' : FileTree}

theorem refl (h : t.Enclosed home) : DoneBelow home t t := ⟨h, .refl t⟩

theorem trans (h : DoneBelow home t t') (h' : DoneBelow home t' t'') : DoneBelow home t t'' :=
  ⟨h'.enclosed, h.same.trans h'.same⟩

theorem set (h : t.Enclosed home) (hnew : LinkFree new) (hback : back ≠ []) :
    DoneBelow home t (FileTree.set new t (home ++ back)) := by
  refine ⟨h.set hnew hback, fun place hplace => ?_⟩
  refine (look?_set (fun hbelow => hplace ((List.prefix_append ..).trans hbelow)) ?_).symm
  intro habove hnone
  have hdir : t.HasDir place := by
    rcases List.prefix_or_prefix_of_prefix habove (List.prefix_append home back) with hup | hdown
    · exact h.hasDir.of_above hup
    · exact absurd hdown hplace
  obtain ⟨entries, hget⟩ := hdir
  rw [hnone] at hget
  cases hget

end DoneBelow

theorem startOf_root (path : String) : startOf [] path = [] := ite_self []

/-- Nothing is made where a directory stands. -/
theorem place_ne_ok (hdir : t.HasDir place) (h : ∀ name ∈ place, IsName name) :
    FileTree.place new t [] (Location.path place) ≠ .ok t' := by
  intro hplace
  unfold FileTree.place at hplace
  obtain ⟨entries, hget⟩ := hdir
  rcases List.eq_nil_or_concat place with rfl | ⟨front, last, rfl⟩
  · cases hparent : t.parentOf [] (Location.path []) with
    | error e => simp [hparent] at hplace
    | ok found =>
      obtain ⟨parent, name?⟩ := found
      cases name? with
      | none => simp [hparent] at hplace
      | some name =>
        obtain ⟨-, -, -, hname⟩ := parentOf_eq_ok hparent
        obtain ⟨hlast, hstep⟩ := hname name rfl
        have hempty : (trimmed (Location.path [])).getLastD "" = "" := by decide
        exact hstep.not_same (Or.inl (hlast.symm.trans hempty))
  · rw [List.concat_eq_append] at hget h hplace
    rw [parentOf_path hget h] at hplace
    cases hfits : fits (front ++ [last]) with
    | error e => simp [hfits, Except.map] at hplace
    | ok _ => simp [hfits, Except.map, hget] at hplace

/-- What holds of the files and is kept by each directory made on the way holds of them in the end,
whether or not all of the directories could be made. -/
theorem makeDirs_keeps {P : FileTree → Prop} {here : Location} {base : String}
    {steps : List String}
    (hkeeps : ∀ {t t' : FileTree} {front : List String}, front <+: steps → P t →
      t.makeDir here (joinPath base (String.intercalate "/" front)) = .ok t' → P t')
    (h : P t) : P (t.makeDirs here base steps).2 := by
  fun_induction makeDirs t here base steps with
  | case1 steps path t' hmake => exact hkeeps List.prefix_rfl h hmake
  | case2 steps path e hmake hmissing e' t' hdirs ih =>
    rw [hdirs] at ih
    exact ih fun hfront => hkeeps (hfront.trans (List.dropLast_prefix steps))
  | case3 steps path e hmake hmissing t' hdirs t'' hagain ih =>
    rw [hdirs] at ih
    refine hkeeps List.prefix_rfl (ih fun hfront => ?_) hagain
    exact hkeeps (hfront.trans (List.dropLast_prefix steps))
  | case4 steps path e hmake hmissing t' hdirs e' hagain hdir ih
  | case5 steps path e hmake hmissing t' hdirs e' hagain hdir ih =>
    rw [hdirs] at ih
    exact ih fun hfront => hkeeps (hfront.trans (List.dropLast_prefix steps))
  | case6 | case7 => exact h

section Home

variable (hhome : ∀ name ∈ home, IsName name)
include hhome

theorem Enclosed.writeBytes_below (h : t.Enclosed home) {path : String} {more : List String}
    (hpath : Inside home path more) {content : List UInt8}
    (hwrite : t.writeBytes [] path content = .ok t') : DoneBelow home t t' := by
  obtain ⟨place, hplace, rfl⟩ := writeBytes_eq_ok_iff.mp hwrite
  obtain ⟨back, hback, rfl⟩ := h.filePlace_below hhome hpath hplace (startOf_root path)
  have hset : ∀ mode, DoneBelow home t (FileTree.set (.file content mode) t (home ++ back)) :=
    fun mode => .set h (linkFree_of_isLeaf rfl) hback
  unfold writeAt
  split
  · exact hset _
  · exact .refl h
  · exact hset _

/-- A directory can only be made below the home: what leads to the home is there already. -/
theorem Enclosed.makeDir_below (h : t.Enclosed home) {steps : List String}
    (hsteps : ∀ name ∈ steps, IsName name) (hcomparable : steps <+: home ∨ home <+: steps)
    (hmake : t.makeDir [] (Location.path steps) = .ok t') : DoneBelow home t t' := by
  rw [makeDir] at hmake
  have hinside : home <+: steps → home ≠ steps → DoneBelow home t t' := by
    rintro ⟨back, rfl⟩ hne
    have hback : back ≠ [] := fun hnil => hne (by rw [hnil, List.append_nil])
    obtain ⟨back', hback', rfl⟩ := h.place_below hhome (inside_path hback hsteps) hmake
      (startOf_root _)
    exact .set h linkFree_empty hback'
  by_cases hup : steps <+: home
  · exact absurd hmake (place_ne_ok (h.hasDir.of_above hup) hsteps)
  · exact hinside (hcomparable.resolve_left hup) fun heq => hup (heq ▸ List.prefix_rfl)

omit hhome in
theorem joinPath_root {names : List String} (h : ∀ name ∈ names, IsName name) :
    joinPath "/" (String.intercalate "/" names) = Location.path names := by
  have hslash : "/".endsWith "/" = true := by
    have hsuffix : "/".toList <:+ "/".toSlice.copy.toList := by simp
    rw [String.endsWith_eq_endsWith_toSlice]
    exact String.Slice.endsWith_string_iff.mpr hsuffix
  rw [joinPath, isAbsolute_intercalate h, hslash]
  rfl

/-- The directories on the way to a place below the home are made below it. -/
theorem Enclosed.makeDirs_below (h : t.Enclosed home) {steps : List String}
    (hsteps : ∀ name ∈ steps, IsName name) (hcomparable : steps <+: home ∨ home <+: steps) :
    DoneBelow home t (t.makeDirs [] "/" steps).2 := by
  refine makeDirs_keeps (fun {t₁ t₂ front} hfront hdone hmake => ?_) (.refl h)
  have hnames : ∀ name ∈ front, IsName name := fun name hname =>
    hsteps name (hfront.subset hname)
  have hup : front <+: home ∨ home <+: front := by
    rcases hcomparable with habove | hbelow
    · exact .inl (hfront.trans habove)
    · exact List.prefix_or_prefix_of_prefix hfront hbelow
  rw [joinPath_root hnames] at hmake
  exact hdone.trans (hdone.enclosed.makeDir_below hhome hnames hup hmake)

/-- So are those on the way to a file below the home. -/
theorem Enclosed.makeParents_below (h : t.Enclosed home) {path : String} {more : List String}
    (hpath : pathNames path = "" :: (home ++ more))
    (hmore : ∀ name ∈ more, name = "" ∨ IsName name) :
    DoneBelow home t (t.makeDirs [] "/" (pathSteps path).dropLast).2 := by
  have hsteps := pathSteps_eq hpath hhome
  refine h.makeDirs_below hhome (fun name hname => ?_) ?_
  · have hname := List.dropLast_subset _ hname
    rw [hsteps] at hname
    rcases List.mem_append.mp hname with hname | hname
    · exact hhome name hname
    · obtain ⟨hname, hkept⟩ := List.mem_filter.mp hname
      refine (hmore name hname).resolve_left fun hempty => ?_
      simp [hempty] at hkept
  · rw [hsteps]
    exact List.prefix_or_prefix_of_prefix ( List.dropLast_prefix _) (List.prefix_append ..)

end Home

/-- A directory that was not there is made with what is put below it. -/
theorem DoneBelow.set_new {name : String} (hfront : t.HasDir front)
    (hfree : t.get? (front ++ [name]) = none) (hnew : LinkFree new) (hback : back ≠ []) :
    DoneBelow (front ++ [name]) t (FileTree.set new t (front ++ [name] ++ back)) := by
  obtain ⟨entries, hget⟩ := hfront
  have hnone : SortedMap.find? name entries = none := by
    rw [get?_append, hget] at hfree
    cases hfound : SortedMap.find? name entries with
    | none => rfl
    | some x => simp [get?, hfound] at hfree
  refine ⟨?_, fun place hplace => ?_⟩
  · have hset : (FileTree.set new t (front ++ name :: back)).get? front =
        some (FileTree.set new _ (name :: back)) := get?_set_of_some hget
    have hmade : (FileTree.set new t (front ++ [name] ++ back)).get? (front ++ [name]) =
        some (FileTree.set new (.dir []) back) := by
      rw [List.append_assoc, List.singleton_append, get?_append, hset, FileTree.set, hnone]
      simp [get?, SortedMap.find?_insert]
    have hlinkFree := linkFree_empty.set hnew back
    cases back with
    | nil => exact absurd rfl hback
    | cons first back => exact ⟨_, hmade, hlinkFree⟩
  · refine (look?_set (fun hbelow => hplace ((List.prefix_append ..).trans hbelow)) ?_).symm
    intro habove hnoplace
    have hup : place <+: front := by
      rcases List.prefix_or_prefix_of_prefix habove
        (List.prefix_append (front ++ [name]) back) with hup | hdown
      · rcases List.prefix_concat_iff.mp hup with heq | hup
        · exact absurd (heq ▸ List.prefix_rfl) hplace
        · exact hup
      · exact absurd hdown hplace
    obtain ⟨entries', hget'⟩ := HasDir.of_above ⟨entries, hget⟩ hup
    rw [hnoplace] at hget'
    cases hget'

end FileTree

/-! ## Sandboxes -/

open FileTree

namespace Sandbox

/-- What a link of a project leads to is copied only when it is a file. -/
theorem isFile_of_linked? {files x : FileTree} {root place : Location}
    (h : linked? files root place = some x) : x.isFile = true := by
  unfold linked? at h
  split at h
  · split at h
    · exact (Option.filter_eq_some_iff.mp h).2
    · cases h
  · cases h

mutual

private theorem linkFree_copy (files : FileTree) (root place : Location) :
    (t : FileTree) → {t' : FileTree} → copy files root place t = some t' → LinkFree t'
  | .file content mode, t', h => by
    rw [copy] at h
    split at h
    · cases h
    · cases h
      exact linkFree_of_isLeaf rfl
  | .device kind, t', h => by
    rw [copy] at h
    cases h
  | .link target, t', h => by
    rw [copy] at h
    split at h
    · cases h
    · have hfile := isFile_of_linked? h
      cases t' with
      | file content mode => exact linkFree_of_isLeaf rfl
      | _ => cases hfile
  | .dir entries, t', h => by
    rw [copy] at h
    split at h
    · cases h
    · cases h
      exact linkFree_dir (linkFree_copyAll files root place entries)

private theorem linkFree_copyAll (files : FileTree) (root place : Location) :
    (entries : List (String × FileTree)) → ∀ e ∈ copyAll files root place entries, LinkFree e.2
  | [], e, he => by
    rw [copyAll] at he
    cases he
  | (name, t) :: rest, e, he => by
    rw [copyAll] at he
    split at he
    · rename_i t' hcopy
      rcases List.mem_cons.mp he with rfl | he
      · exact linkFree_copy files root (place ++ [name]) t hcopy
      · exact linkFree_copyAll files root place rest e he
    · exact linkFree_copyAll files root place rest e he

end

theorem linkFree_copyOf (files : FileTree) (root : Location) : LinkFree (copyOf files root) := by
  unfold copyOf
  split
  · rename_i entries h
    obtain ⟨t, -, hcopy⟩ := Option.bind_eq_some_iff.mp h
    exact linkFree_copy files root [] t hcopy
  · exact linkFree_empty

end Sandbox

/-! ## New directories -/

/-- A place in the directory for temporary files at which nothing stands yet. -/
structure Host.NewPlace (host : Host) (files : FileTree) (home : Location) : Prop where
  exists_name : ∃ name, IsName name ∧ home = host.temporary ++ [name]
  hasDir : files.HasDir host.temporary
  free : files.get? home = none

theorem isName_numbered {start : String} (hslash : '/' ∉ start.toList)
    (hlong : 2 < start.toList.length) (n : Nat) : IsName (start ++ Nat.repr n) := by
  have hlength : 2 < (start ++ Nat.repr n).toList.length := by
    rw [String.toList_append, List.length_append]
    omega
  have hlonger : ∀ short : String, short.toList.length ≤ 2 → start ++ Nat.repr n ≠ short := by
    rintro short hshort rfl
    omega
  refine ⟨hlonger "" (by decide), hlonger "." (by decide), hlonger ".." (by decide), fun hmem => ?_⟩
  rw [String.toList_append] at hmem
  rcases List.mem_append.mp hmem with hmem | hmem
  · exact hslash hmem
  · have hdigits : '/' ∈ Nat.toDigits 10 n := by simpa [Nat.repr] using hmem
    have hdigit := Nat.isDigit_of_mem_toDigits (by decide) (by decide) hdigits
    exact absurd hdigit (by decide)

theorem Host.newPlace_of_freshPlace {host : Host} {files : FileTree} {start : String}
    {home : Location} (h : host.freshPlace files start = .ok home) (hslash : '/' ∉ start.toList)
    (hlong : 2 < start.toList.length) : host.NewPlace files home := by
  unfold Host.freshPlace at h
  split at h
  · cases h
  · rename_i entries hget
    split at h
    · rename_i name hname
      obtain rfl := Except.ok.inj h
      unfold freshName? at hname
      have hnew := List.find?_some hname
      have hnone := Option.isNone_iff_eq_none.mp hnew
      obtain ⟨n, -, rfl⟩ := List.mem_map.mp (List.mem_of_find?_eq_some hname)
      refine ⟨⟨_, isName_numbered hslash hlong n, rfl⟩, ⟨entries, hget⟩, ?_⟩
      rw [get?_append, hget]
      simp [get?, hnone]
    · cases h
  · cases h

theorem Host.NewPlace.names {host : Host} {files : FileTree} {home : Location}
    (h : host.NewPlace files home) (hnames : ∀ name ∈ host.temporary, IsName name) :
    ∀ name ∈ home, IsName name := by
  obtain ⟨last, hlast, rfl⟩ := h.exists_name
  intro name hname
  rcases List.mem_append.mp hname with hname | hname
  · exact hnames name hname
  · rw [List.mem_singleton.mp hname]
    exact hlast

/-! ## Writing in a sandbox -/

namespace Sandbox

section Writing

variable {host : Host} {s : Sandbox} {files files' : FileTree}

theorem create_eq_ok {root : String} {keep : Bool} {timeLimit : Nat}
    {environment : List (String × String)}
    (h : create host files root keep timeLimit environment = .ok (s, files')) :
    files.canonical host.here root = .ok s.project ∧ host.NewPlace files s.home ∧
      files' = FileTree.set (copyOf files s.project) (FileTree.set (.dir []) files s.notes)
        s.workspace := by
  unfold create at h
  split at h
  · cases h
  · rename_i project hproject
    split at h
    · cases h
    · rename_i home hfresh
      obtain ⟨rfl, rfl⟩ := Prod.mk.inj (Except.ok.inj h)
      exact ⟨hproject, Host.newPlace_of_freshPlace hfresh (by decide) (by decide), rfl⟩

theorem notes_done (hnew : host.NewPlace files s.home) :
    DoneBelow s.home files (FileTree.set (.dir []) files s.notes) := by
  obtain ⟨name, -, hname⟩ := hnew.exists_name
  rw [notes, hname]
  exact .set_new hnew.hasDir (hname ▸ hnew.free) linkFree_empty (by simp)

/-- A sandbox stands in a new directory, and nothing shows of it elsewhere. -/
theorem create_below {root : String} {keep : Bool} {timeLimit : Nat}
    {environment : List (String × String)}
    (h : create host files root keep timeLimit environment = .ok (s, files')) :
    host.NewPlace files s.home ∧ DoneBelow s.home files files' := by
  obtain ⟨-, hnew, rfl⟩ := create_eq_ok h
  have hnotes := notes_done hnew
  exact ⟨hnew, hnotes.trans (.set hnotes.enclosed (linkFree_copyOf files s.project) (by simp))⟩

variable (hnames : ∀ name ∈ s.home, IsName name)
include hnames

theorem names_below {back : Location} (hback : ∀ name ∈ back, IsName name) :
    ∀ name ∈ s.home ++ back, IsName name := by
  intro name hname
  exact (List.mem_append.mp hname).elim (hnames name) (hback name)

omit hnames in
/-- Where the directories on the way and the file are below a directory without links, all that is
done by a write is done there. -/
theorem write_done {home : Location} (hhome : ∀ name ∈ home, IsName name)
    (h : files.Enclosed home) {path content : String} {more : List String}
    (hpath : pathNames (joinPath s.workspace.path path) = "" :: (home ++ more))
    (hmore : ∀ name ∈ more, name = "" ∨ IsName name)
    (hwrite : ∀ {t t' : FileTree}, t.Enclosed home →
      t.writeBytes [] (joinPath s.workspace.path path) (Utf8.encode content) = .ok t' →
        DoneBelow home t t') :
    DoneBelow home files (s.write files path content).2 := by
  have hdirs := h.makeParents_below hhome hpath hmore
  unfold write
  simp only
  split
  · rename_i e files' hmade
    rw [hmade] at hdirs
    exact hdirs
  · rename_i files' hmade
    rw [hmade] at hdirs
    split
    · exact hdirs
    · rename_i files'' hwritten
      exact hdirs.trans (hwrite hdirs.enclosed hwritten)

theorem write_below (h : files.Enclosed s.home) {names : List String}
    (hpath : ∀ name ∈ names, IsName name) (content : String) :
    DoneBelow s.home files (s.write files (String.intercalate "/" names) content).2 := by
  obtain ⟨more, hinside, hmore⟩ := inside_join (List.cons_ne_nil "workspace" [])
    (names_below hnames (by decide)) hpath
  exact write_done hnames h hinside.names_eq hmore fun henclosed =>
    henclosed.writeBytes_below hnames hinside

/-- A file among the notes is written below the home. -/
theorem writeNote_below (h : files.Enclosed s.home) {name : String} (hname : IsName name)
    {content : List UInt8}
    (hwrite : files.writeBytes [] (s.notes ++ [name]).path content = .ok files') :
    DoneBelow s.home files files' := by
  have hnote : s.notes ++ [name] = s.home ++ [".respec_meta", name] := by
    rw [notes, List.append_assoc, List.singleton_append]
  have hbelow : ∀ n ∈ [".respec_meta", name], IsName n := by
    intro n hn
    rcases List.mem_cons.mp hn with rfl | hn
    · decide
    · rw [List.mem_singleton.mp hn]
      exact hname
  rw [hnote] at hwrite
  exact h.writeBytes_below hnames (inside_path (by simp) (names_below hnames hbelow)) hwrite

theorem openLogs_below (h : files.Enclosed s.home) :
    DoneBelow s.home files (s.openLogs files).2 := by
  have hname : ∀ output, output = "stdout" ∨ output = "stderr" →
      IsName ("command." ++ output ++ ".log") := by
    rintro output (rfl | rfl) <;> decide
  unfold openLogs
  split
  · exact .refl h
  · rename_i files₁ hfirst
    have hfirst := writeNote_below hnames h (hname "stdout" (.inl rfl)) hfirst
    split
    · exact hfirst
    · rename_i files₂ hsecond
      exact hfirst.trans
        (writeNote_below hnames hfirst.enclosed (hname "stderr" (.inr rfl)) hsecond)

end Writing

end Sandbox

/-! ## Projects -/

/-- What belongs to a project: what stands at its root, above it or below, without what is new in
the directory for temporary files. -/
def Host.OfProject (host : Host) (files : FileTree) (root place : Location) : Prop :=
  (place <+: root ∨ root <+: place) ∧
    ∀ name, host.temporary ++ [name] <+: place → files.get? (host.temporary ++ [name]) ≠ none

/-- Commands leave a project as it is. -/
def Host.Spares (host : Host) (files : FileTree) (root : Location) : Prop :=
  ∀ l f, host.runner.launch l = .ok f → SameOn (host.OfProject files root) l.files f.files

theorem Runner.launch_of_start {r : Runner} {l : Launch} {f : Finish} (h : r.start l = .ok f) :
    r.launch l = .ok f := by
  unfold start at h
  split at h
  · cases h
  · split at h
    · cases h
    · exact h

section Apart

variable {host : Host} {files now now' : FileTree} {root home place : Location}

/-- As long as a project is as it was, a new directory is no part of it. -/
theorem Host.NewPlace.apart (h : host.NewPlace now home)
    (hnow : SameOn (host.OfProject files root) files now) :
    ∀ place, host.OfProject files root place → ¬ home <+: place := by
  obtain ⟨name, -, rfl⟩ := h.exists_name
  intro place hplace hbelow
  have hold := hplace.2 name hbelow
  have hhome : host.OfProject files root (host.temporary ++ [name]) := by
    refine ⟨?_, fun name' hname' => ?_⟩
    · rcases hplace.1 with habove | hunder
      · exact .inl (hbelow.trans habove)
      · exact List.prefix_or_prefix_of_prefix hbelow hunder
    · rwa [hname'.eq_of_length (by simp)]
  have hlook := hnow _ hhome
  rw [look?_eq_none_iff.mpr h.free, look?_eq_none_iff] at hlook
  exact hold hlook

theorem FileTree.DoneBelow.sameOn_project (h : DoneBelow home now now')
    (hapart : ∀ place, host.OfProject files root place → ¬ home <+: place) :
    SameOn (host.OfProject files root) now now' :=
  fun place hplace => h.same place (hapart place hplace)

theorem FileTree.sameOn_erase (now : FileTree)
    (hapart : ∀ place, host.OfProject files root place → ¬ home <+: place) :
    SameOn (host.OfProject files root) now (now.erase home) :=
  fun place hplace => (look?_erase (hapart place hplace)).symm

end Apart

/-! ## Test runs -/

section Sparing

variable {host : Host} {files now : FileTree} {root : Location} {s : Sandbox}
  (hspares : host.Spares files root) (hnames : ∀ name ∈ s.home, IsName name)
  (hapart : ∀ place, host.OfProject files root place → ¬ s.home <+: place)

include hspares hnames hapart in
/-- A command that is run in a sandbox does nothing to a project that it spares. -/
theorem Sandbox.run_spares (h : now.Enclosed s.home) (command : List String) :
    SameOn (host.OfProject files root) now (s.run host now command).2 := by
  have hlogs := openLogs_below hnames h
  unfold run
  split
  · exact .refl _
  · split
    · exact .refl _
    · split
      · rename_i e now' hopen
        rw [hopen] at hlogs
        exact hlogs.sameOn_project hapart
      · rename_i now' hopen
        rw [hopen] at hlogs
        split
        · exact hlogs.sameOn_project hapart
        · rename_i f hstart
          exact (hlogs.sameOn_project hapart).trans
            (hspares _ f (Runner.launch_of_start hstart))

include hapart in
/-- A sandbox is disposed of without a trace elsewhere. -/
theorem Sandbox.dispose_spares (now : FileTree) (hadError : Bool) :
    SameOn (host.OfProject files root) now (s.dispose now hadError).2 := by
  unfold dispose
  split
  · exact .refl _
  · split
    · exact .refl _
    · exact sameOn_erase now hapart

namespace Analysis

/-- The path of a unit is made of names, so that it leads nowhere but down. -/
def PathDown (u : ProbedSource) : Prop :=
  ∃ names, (∀ name ∈ names, IsName name) ∧ u.tree.path = String.intercalate "/" names

variable {units : List ProbedSource} (hunits : ∀ u ∈ units, PathDown u)

include hunits in
/-- Whatever is written for units is done where single writes are done. -/
theorem instrumentAll_done {home : Location} (h : now.Enclosed home)
    (hwrite : ∀ {t : FileTree} {names : List String} (content : String), t.Enclosed home →
      (∀ name ∈ names, IsName name) →
        DoneBelow home t (s.write t (String.intercalate "/" names) content).2) :
    DoneBelow home now (instrumentAll s now units).2 := by
  induction units generalizing now with
  | nil => exact .refl h
  | cons u units ih =>
    have hrest : ∀ v ∈ units, PathDown v := fun v hv => hunits v (List.mem_cons_of_mem _ hv)
    obtain ⟨names, hpath, hu⟩ := hunits u List.mem_cons_self
    have hwritten := hwrite (Probe.instrument u.tree u.requests).source h hpath
    rw [instrumentAll, hu]
    split
    · exact ih hrest h
    · split
      · rename_i e now' hwrite
        rw [hwrite] at hwritten
        exact hwritten
      · rename_i now' hwrite
        rw [hwrite] at hwritten
        exact hwritten.trans (ih hrest hwritten.enclosed)

include hnames hunits in
theorem instrumentAll_below (h : now.Enclosed s.home) :
    DoneBelow s.home now (instrumentAll s now units).2 :=
  instrumentAll_done hunits h fun content henclosed hpath =>
    Sandbox.write_below hnames henclosed hpath content

include hspares hnames hapart hunits in
theorem runTests_spares (h : now.Enclosed s.home) (settings : AnalysisSettings) :
    SameOn (host.OfProject files root) now (runTests host s now settings units).2 := by
  have hinstrumented := instrumentAll_below hnames hunits h
  unfold runTests
  split
  · rename_i e now' hall
    rw [hall] at hinstrumented
    exact hinstrumented.sameOn_project hapart
  · rename_i now' hall
    rw [hall] at hinstrumented
    split
    · exact hinstrumented.sameOn_project hapart
    · rename_i now'' hhelper
      have hhelperName : IsName helperName := by decide
      have hwritten := hinstrumented.trans
        (Sandbox.writeNote_below hnames hinstrumented.enclosed hhelperName hhelper)
      have hrun := Sandbox.run_spares hspares (s := (s.setVariable "RUBYOPT"
        ("-r" ++ (s.notes ++ [helperName]).path)).setVariable outputVariable
          (s.notes ++ [payloadName]).path) hnames hapart hwritten.enclosed settings.command
      simp only
      split <;>
      · rename_i hresult
        rw [show Sandbox.notes (s.setVariable "RUBYOPT" _) = s.notes from rfl] at hresult
        rw [hresult] at hrun
        exact (hwritten.sameOn_project hapart).trans hrun

include hspares hunits in
omit hnames hapart in
/-- Whatever comes of a test run, the project is as it was. -/
theorem attempt_spares (hnames : ∀ name ∈ host.temporary, IsName name)
    (hnow : SameOn (host.OfProject files root) files now) (settings : AnalysisSettings)
    (path : String) :
    SameOn (host.OfProject files root) files (attempt host now settings path units).2 := by
  unfold attempt
  split
  · exact hnow
  · rename_i s now' hcreate
    obtain ⟨hnew, hcreated⟩ := Sandbox.create_below hcreate
    have hapart := hnew.apart hnow
    have hrun := runTests_spares hspares (hnew.names hnames) hapart hunits hcreated.enclosed settings
    exact hnow.trans (((hcreated.sameOn_project hapart).trans hrun).trans
      (Sandbox.dispose_spares hapart _ _))

/-- Without a directory for temporary files there is no test run. -/
theorem attempt_of_no_temporary (h : ¬ now.HasDir host.temporary) (settings : AnalysisSettings)
    (path : String) (units : List ProbedSource) :
    ∃ e, attempt host now settings path units = (.error e, now) := by
  unfold attempt
  split
  · exact ⟨_, rfl⟩
  · rename_i hcreate
    exact absurd (Sandbox.create_below hcreate).1.hasDir h

end Analysis

end Sparing

end SpecUpgrade
