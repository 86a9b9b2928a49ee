import SpecUpgrade.Proofs.Confinement
import SpecUpgrade.Proofs.Selection

/-!
What stands in the copy of a project. A file is there exactly when it is in the project, or a link
to a file of the project is, and nothing on the way to it is left out.
-/

namespace SpecUpgrade

open FileTree

namespace Sandbox

/-- What the copy of a project shows at a place that is not left out: a directory of the project, a
file of it, and in the place of a link the file of the project that it leads to in the end. -/
inductive Mirrors (files : FileTree) (root place : Location) : FileTree → Prop where
  | dir (hdir : files.HasDir (root ++ place)) : Mirrors files root place (.dir [])
  | file {content : List UInt8} {mode : Nat}
      (hfile : files.get? (root ++ place) = some (.file content mode)) :
      Mirrors files root place (.file content mode)
  | link {target : String} {there : Location} {content : List UInt8} {mode : Nat}
      (hlink : files.get? (root ++ place) = some (.link target))
      (hleads : files.canonical [] (Location.path (root ++ place)) = .ok there)
      (hbelow : root <+: there) (hfile : files.get? there = some (.file content mode)) :
      Mirrors files root place (.file content mode)

/-- Neither the place nor anything above it is left out. -/
def Kept (place : Location) : Prop := ∀ front, front <+: place → isExcluded front = false

instance (place : Location) : Decidable (Kept place) :=
  decidable_of_iff (∀ n < place.length + 1, isExcluded (place.take n) = false)
    ⟨fun h front hfront => List.prefix_iff_eq_take.mp hfront ▸
        h front.length (Nat.lt_succ_of_le hfront.length_le),
      fun h n _ => h _ (List.take_prefix n place)⟩

variable {files : FileTree} {root place : Location}

theorem Mirrors.exists_get? {x : FileTree} (h : Mirrors files root place x) :
    ∃ y, files.get? (root ++ place) = some y := by
  cases h with
  | dir hdir => exact ⟨_, hdir.choose_spec⟩
  | file hfile => exact ⟨_, hfile⟩
  | link hlink => exact ⟨_, hlink⟩

/-- The content of a file comes from a file of the project. -/
theorem Mirrors.exists_below {content : List UInt8} {mode : Nat}
    (h : Mirrors files root place (.file content mode)) :
    ∃ there, root <+: there ∧ files.get? there = some (.file content mode) := by
  cases h with
  | file hfile => exact ⟨_, List.prefix_append .., hfile⟩
  | link _ _ hbelow hfile => exact ⟨_, hbelow, hfile⟩

theorem linked?_eq_some_iff {x : FileTree} :
    linked? files root place = some x ↔
      ∃ there content mode, files.canonical [] (Location.path (root ++ place)) = .ok there ∧
        root <+: there ∧ files.get? there = some (.file content mode) ∧ x = .file content mode := by
  unfold linked?
  cases files.canonical [] (Location.path (root ++ place)) with
  | error e => simp
  | ok there =>
    simp only [List.isPrefixOf_iff_prefix, Option.ite_none_right_eq_some,
      Option.filter_eq_some_iff, Except.ok.injEq]
    constructor
    · rintro ⟨hbelow, hget, hfile⟩
      cases x with
      | file content mode => exact ⟨there, content, mode, rfl, hbelow, hget, rfl⟩
      | _ => cases hfile
    · rintro ⟨_, content, mode, rfl, hbelow, hget, rfl⟩
      exact ⟨hbelow, hget, rfl⟩

theorem copy_of_excluded (h : isExcluded place = true) (t : FileTree) :
    copy files root place t = none := by
  cases t <;> simp [copy, h]

/-- What is copied shows as what is to be mirrored. -/
theorem copy_surface_iff {t x : FileTree} (hget : files.get? (root ++ place) = some t)
    (hkept : isExcluded place = false) :
    (copy files root place t).map surface = some x ↔ Mirrors files root place x := by
  constructor
  · intro h
    obtain ⟨y, hcopy, rfl⟩ := Option.map_eq_some_iff.mp h
    cases t with
    | file content mode =>
      obtain rfl : _ = y := by simpa [copy, hkept] using hcopy
      exact .file hget
    | device kind => simp [copy] at hcopy
    | link target =>
      obtain ⟨there, content, mode, hleads, hbelow, hfile, rfl⟩ :=
        linked?_eq_some_iff.mp (by simpa [copy, hkept] using hcopy)
      exact .link hget hleads hbelow hfile
    | dir entries =>
      obtain rfl : _ = y := by simpa [copy, hkept] using hcopy
      exact .dir ⟨entries, hget⟩
  · intro h
    cases h with
    | dir hdir =>
      obtain ⟨entries, hdir⟩ := hdir
      obtain rfl : t = _ := Option.some.inj (hget.symm.trans hdir)
      simp [copy, hkept, surface]
    | file hfile =>
      obtain rfl : t = _ := Option.some.inj (hget.symm.trans hfile)
      simp [copy, hkept, surface]
    | link hlink hleads hbelow hfile =>
      obtain rfl : t = _ := Option.some.inj (hget.symm.trans hlink)
      have hlinked := linked?_eq_some_iff.mpr ⟨_, _, _, hleads, hbelow, hfile, rfl⟩
      simp [copy, hkept, hlinked, surface]

/-- The entries of a copy are the copies of the entries. -/
theorem find?_copyAll {entries : List (String × FileTree)} (hkeys : (entries.map (·.1)).Nodup)
    (name : String) :
    SortedMap.find? name (copyAll files root place entries) =
      (SortedMap.find? name entries).bind (copy files root (place ++ [name])) := by
  induction entries with
  | nil => rfl
  | cons e entries ih =>
    obtain ⟨hfresh, hrest⟩ := List.nodup_cons.mp hkeys
    have ih := ih hrest
    rw [copyAll, SortedMap.find?]
    by_cases hname : name = e.1
    · subst hname
      rw [if_pos rfl, Option.bind_some]
      cases hcopy : copy files root (place ++ [e.1]) e.2 with
      | some t => simp [SortedMap.find?]
      | none =>
        rw [SortedMap.find?_eq_none hfresh] at ih
        exact ih
    · rw [if_neg hname]
      cases copy files root (place ++ [e.1]) e.2 with
      | some t => simp [SortedMap.find?, hname, ih]
      | none => exact ih

/-- Below what is no directory a copy shows nothing. -/
theorem look?_copy_below {t : FileTree} (ht : t.isDir = false) (name : String) (back : Location) :
    (copy files root place t).bind (·.look? (name :: back)) = none := by
  rw [Option.bind_eq_none_iff]
  intro y hcopy
  have hy : y.isFile = true := by
    cases t with
    | file content mode =>
      obtain ⟨-, rfl⟩ : _ ∧ _ = y := by simpa [copy] using hcopy
      rfl
    | device kind => simp [copy] at hcopy
    | link target =>
      obtain ⟨-, hlinked⟩ : _ ∧ linked? files root place = some y := by simpa [copy] using hcopy
      exact isFile_of_linked? hlinked
    | dir entries => cases ht
  cases y with
  | file content mode => rfl
  | _ => cases hy

/-- In the copy of a directory an entry shows what the copy of the entry shows. -/
theorem look?_copy_entry {entries : List (String × FileTree)}
    (hkeys : (entries.map (·.1)).Nodup) (hkept : isExcluded place = false) (name : String)
    (back : Location) :
    (copy files root place (.dir entries)).bind (·.look? (name :: back)) =
      ((SortedMap.find? name entries).bind (copy files root (place ++ [name]))).bind
        (·.look? back) := by
  rw [← find?_copyAll hkeys]
  simp only [copy, hkept, Bool.false_eq_true, if_false, Option.bind_some, look?, get?]
  cases SortedMap.find? name (copyAll files root place entries) <;> rfl

theorem kept_cons_iff {name : String} {back : Location} (hkept : isExcluded place = false) :
    (∀ front, front <+: name :: back → isExcluded (place ++ front) = false) ↔
      ∀ front, front <+: back → isExcluded (place ++ [name] ++ front) = false := by
  simp only [List.append_assoc, List.singleton_append]
  constructor
  · exact fun h front hfront => h (name :: front) (List.cons_prefix_cons.mpr ⟨rfl, hfront⟩)
  · intro h front hfront
    rcases List.prefix_cons_iff.mp hfront with rfl | ⟨rest, rfl, hrest⟩
    · rwa [List.append_nil]
    · exact h rest hrest

/-- The copy of what stands at a place shows what is to be mirrored there and below. -/
theorem look?_copy_iff (hwf : files.WellFormed) {t : FileTree}
    (hget : files.get? (root ++ place) = some t) (back : Location) (x : FileTree) :
    (copy files root place t).bind (·.look? back) = some x ↔
      (∀ front, front <+: back → isExcluded (place ++ front) = false) ∧
        Mirrors files root (place ++ back) x := by
  induction back generalizing place t with
  | nil =>
    have hlook : (copy files root place t).bind (·.look? []) =
        (copy files root place t).map surface := by
      cases copy files root place t <;> rfl
    rw [hlook, List.append_nil]
    cases hkept : isExcluded place with
    | true => simp [copy_of_excluded hkept, hkept]
    | false => simp [copy_surface_iff hget hkept, hkept]
  | cons name back ih =>
    have hassoc : place ++ name :: back = place ++ [name] ++ back := by simp
    -- nothing is mirrored below what is no directory or has no such entry
    have hnothing : files.get? (root ++ (place ++ [name])) = none →
        ¬ Mirrors files root (place ++ name :: back) x := by
      intro hnone h
      obtain ⟨y, hy⟩ := h.exists_get?
      rw [hassoc, ← List.append_assoc, get?_append, hnone] at hy
      cases hy
    have hentry : files.get? (root ++ (place ++ [name])) = t.get? [name] := by
      rw [← List.append_assoc, get?_append, hget, Option.bind_some]
    cases hkept : isExcluded place with
    | true =>
      rw [copy_of_excluded hkept]
      refine iff_of_false (by simp) fun h => ?_
      have hroot := h.1 [] List.nil_prefix
      rw [List.append_nil, hkept] at hroot
      cases hroot
    | false =>
      cases hdir : t.isDir with
      | false =>
        rw [look?_copy_below hdir]
        refine iff_of_false (by simp) fun h => hnothing ?_ h.2
        rw [hentry]
        cases t <;> first | rfl | cases hdir
      | true =>
        cases t with
        | dir entries =>
          rw [look?_copy_entry (hwf.of_get? hget).entries.1 hkept]
          cases hfound : SortedMap.find? name entries with
          | none =>
            refine iff_of_false (by simp) fun h => hnothing ?_ h.2
            rw [hentry, get?, hfound]
          | some below =>
            have hbelow : files.get? (root ++ (place ++ [name])) = some below := by
              simp [hentry, get?, hfound]
            rw [Option.bind_some, ih hbelow, kept_cons_iff hkept, hassoc]
        | _ => cases hdir

/-- The copy of a project shows what is to be mirrored. -/
theorem look?_copyOf_iff (hwf : files.WellFormed) (hroot : files.HasDir root) (place : Location)
    (x : FileTree) :
    (copyOf files root).look? place = some x ↔ Kept place ∧ Mirrors files root place x := by
  obtain ⟨entries, hget⟩ := hroot
  have hwhole : files.get? (root ++ []) = some (.dir entries) := by rwa [List.append_nil]
  have hcopy : copyOf files root = .dir (copyAll files root [] entries) := by
    have hkept : isExcluded [] = false := rfl
    simp [copyOf, hget, copy, hkept]
  have hiff := look?_copy_iff hwf hwhole place x
  have hkept : isExcluded [] = false := rfl
  simpa [hcopy, copy, hkept, Kept] using hiff

end Sandbox
end SpecUpgrade
