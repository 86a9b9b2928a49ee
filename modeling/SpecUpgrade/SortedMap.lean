/-!
Finite maps as association lists in strictly increasing key order.
-/

namespace SpecUpgrade.SortedMap

variable {κ α : Type} [LT κ] [DecidableLT κ] [DecidableEq κ]

/-- Adds an entry in its place; an entry of the same key is overwritten. -/
def insert (k : κ) (v : α) : List (κ × α) → List (κ × α)
  | [] => [(k, v)]
  | (k', v') :: rest =>
    if k < k' then (k, v) :: (k', v') :: rest
    else if k = k' then (k, v) :: rest
    else (k', v') :: insert k v rest

def find? (k : κ) : List (κ × α) → Option α
  | [] => none
  | (k', v') :: rest => if k = k' then some v' else find? k rest

/-- The map of a list of entries; of two entries with one key the later wins. -/
def ofList (entries : List (κ × α)) : List (κ × α) :=
  entries.foldl (fun m e => insert e.1 e.2 m) []

theorem find?_insert (k k' : κ) (v : α) (entries : List (κ × α)) :
    find? k' (insert k v entries) = if k' = k then some v else find? k' entries := by
  induction entries with
  | nil => rfl
  | cons e rest ih =>
    rw [insert]
    split
    · rfl
    · split
      · rename_i h
        by_cases hk : k' = k <;> simp [find?, hk, ← h]
      · rename_i h
        rw [find?, find?, ih]
        by_cases he : k' = e.1
        · have hne : k' ≠ k := fun hk => h (hk.symm.trans he)
          simp [he, he ▸ hne]
        · simp [he]

omit [LT κ] [DecidableLT κ] in
theorem mem_of_find? {k : κ} {v : α} {entries : List (κ × α)} (h : find? k entries = some v) :
    (k, v) ∈ entries := by
  induction entries with
  | nil => cases h
  | cons e entries ih =>
    rw [find?] at h
    split at h
    · rename_i heq
      cases h
      exact heq ▸ List.mem_cons_self
    · exact List.mem_cons_of_mem _ (ih h)

omit [LT κ] [DecidableLT κ] in
theorem find?_of_mem {k : κ} {v : α} {entries : List (κ × α)} (hkeys : (entries.map (·.1)).Nodup)
    (h : (k, v) ∈ entries) : find? k entries = some v := by
  induction entries with
  | nil => cases h
  | cons e entries ih =>
    rw [List.map_cons, List.nodup_cons] at hkeys
    rw [find?]
    rcases List.mem_cons.mp h with heq | hmem
    · rw [← heq, if_pos rfl]
    · have hne : k ≠ e.1 := by
        rintro rfl
        exact hkeys.1 (List.mem_map.mpr ⟨_, hmem, rfl⟩)
      rw [if_neg hne]
      exact ih hkeys.2 hmem

omit [LT κ] [DecidableLT κ] in
theorem find?_eq_none {k : κ} {entries : List (κ × α)} (h : k ∉ entries.map (·.1)) :
    find? k entries = none := by
  cases hfound : find? k entries with
  | none => rfl
  | some v => exact absurd (List.mem_map_of_mem (mem_of_find? hfound)) h

/-- Where no two entries have one key, every entry keeps its value. -/
theorem find?_ofList {entries : List (κ × α)} (h : (entries.map (·.1)).Nodup) (k : κ) :
    find? k (ofList entries) = find? k entries := by
  suffices hfold : ∀ m : List (κ × α),
      find? k (entries.foldl (fun m e => insert e.1 e.2 m) m) =
        (find? k entries).or (find? k m) by
    rw [ofList, hfold, show find? k ([] : List (κ × α)) = none from rfl, Option.or_none]
  induction entries with
  | nil => exact fun m => rfl
  | cons e entries ih =>
    rw [List.map_cons, List.nodup_cons] at h
    intro m
    rw [List.foldl_cons, ih h.2, find?_insert, find?]
    split
    · rename_i heq
      rw [find?_eq_none (heq ▸ h.1), Option.none_or, Option.some_or]
    · rfl

theorem mem_keys_insert {k key : κ} {v : α} {entries : List (κ × α)} :
    key ∈ (insert k v entries).map (·.1) ↔ key = k ∨ key ∈ entries.map (·.1) := by
  induction entries with
  | nil => simp [insert]
  | cons e entries ih =>
    rw [insert]
    split
    · simp
    · split
      · rename_i heq
        simp [heq]
      · rw [List.map_cons, List.mem_cons, ih, List.map_cons, List.mem_cons, or_left_comm]

section Ascending

variable [Trans (α := κ) (· < ·) (· < ·) (· < ·)] [Std.Trichotomous (α := κ) (· < ·)]

/-- Adding an entry keeps the keys in order. -/
theorem insert_ascending {k : κ} {v : α} {entries : List (κ × α)}
    (h : (entries.map (·.1)).Pairwise (· < ·)) :
    ((insert k v entries).map (·.1)).Pairwise (· < ·) := by
  induction entries with
  | nil => simp [insert]
  | cons e entries ih =>
    obtain ⟨hfirst, hrest⟩ := List.pairwise_cons.mp h
    rw [insert]
    split
    · rename_i hlt
      refine List.pairwise_cons.mpr ⟨fun key hkey => ?_, h⟩
      rcases List.mem_cons.mp hkey with rfl | hkey
      · exact hlt
      · exact Trans.trans hlt (hfirst key hkey)
    · rename_i hge
      split
      · rename_i heq
        rw [List.map_cons, heq]
        exact h
      · rename_i hne
        refine List.pairwise_cons.mpr ⟨fun key hkey => ?_, ih hrest⟩
        rcases mem_keys_insert.mp hkey with rfl | hkey
        · rcases Std.Trichotomous.rel_or_eq_or_rel_swap (r := (· < ·)) (a := key) (b := e.1) with
            hlt | heq | hgt
          · exact absurd hlt hge
          · exact absurd heq hne
          · exact hgt
        · exact hfirst key hkey

theorem ofList_ascending (entries : List (κ × α)) :
    ((ofList entries).map (·.1)).Pairwise (· < ·) := by
  suffices h : ∀ m : List (κ × α), (m.map (·.1)).Pairwise (· < ·) →
      ((entries.foldl (fun m e => insert e.1 e.2 m) m).map (·.1)).Pairwise (· < ·) from
    h [] List.Pairwise.nil
  induction entries with
  | nil => exact fun m hm => hm
  | cons e entries ih => exact fun m hm => ih _ (insert_ascending hm)

end Ascending

omit [DecidableLT κ] in
/-- Keys that come in order stand once each, so the value under a key is any that is entered there. -/
theorem find?_eq_some_iff [Std.Irrefl (α := κ) (· < ·)] {k : κ} {v : α} {entries : List (κ × α)}
    (h : (entries.map (·.1)).Pairwise (· < ·)) : find? k entries = some v ↔ (k, v) ∈ entries := by
  induction entries with
  | nil => simp [find?]
  | cons e entries ih =>
    obtain ⟨hfirst, hrest⟩ := List.pairwise_cons.mp h
    rw [find?, List.mem_cons]
    split
    · rename_i heq
      have hnot : (k, v) ∉ entries := fun hmem => by
        have hlt : e.1 < k := hfirst k (List.mem_map.mpr ⟨_, hmem, rfl⟩)
        rw [heq] at hlt
        exact Std.Irrefl.irrefl _ hlt
      rw [Option.some.injEq, or_iff_left hnot, Prod.ext_iff, and_iff_right heq, eq_comm]
    · rename_i hne
      rw [ih hrest, or_iff_right fun heq => hne (congrArg (·.1) heq)]

theorem mem_keys_ofList {key : κ} {entries : List (κ × α)} :
    key ∈ (ofList entries).map (·.1) ↔ key ∈ entries.map (·.1) := by
  suffices h : ∀ m : List (κ × α),
      key ∈ (entries.foldl (fun m e => insert e.1 e.2 m) m).map (·.1) ↔
        key ∈ m.map (·.1) ∨ key ∈ entries.map (·.1) by
    simpa [ofList] using h []
  induction entries with
  | nil => simp
  | cons e entries ih =>
    intro m
    rw [List.foldl_cons, ih, mem_keys_insert, List.map_cons, List.mem_cons, or_assoc,
      or_left_comm]

theorem mem_of_mem_insert {k : κ} {v : α} {e : κ × α} {entries : List (κ × α)}
    (h : e ∈ insert k v entries) : e = (k, v) ∨ e ∈ entries := by
  induction entries with
  | nil => simpa [insert] using h
  | cons e' entries ih =>
    rw [insert] at h
    split at h
    · exact List.mem_cons.mp h
    · split at h
      · exact (List.mem_cons.mp h).imp_right (List.mem_cons_of_mem _)
      · rcases List.mem_cons.mp h with rfl | h
        · exact .inr List.mem_cons_self
        · exact (ih h).imp_right (List.mem_cons_of_mem _)

/-- A map has no entries but those that it was made of. -/
theorem mem_of_mem_ofList {e : κ × α} {entries : List (κ × α)} (h : e ∈ ofList entries) :
    e ∈ entries := by
  suffices hfold : ∀ m : List (κ × α),
      e ∈ entries.foldl (fun m e => insert e.1 e.2 m) m → e ∈ m ∨ e ∈ entries from
    (hfold [] h).resolve_left List.not_mem_nil
  clear h
  induction entries with
  | nil => exact fun m hm => .inl hm
  | cons e' entries ih =>
    intro m hm
    rcases ih _ hm with hm | hm
    · rcases mem_of_mem_insert hm with rfl | hm
      · exact .inr List.mem_cons_self
      · exact .inl hm
    · exact .inr (List.mem_cons_of_mem _ hm)

end SpecUpgrade.SortedMap
