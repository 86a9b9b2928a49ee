import Mathlib
import SpecUpgrade.Facts.Payload
import SpecUpgrade.Proofs.Documents
import SpecUpgrade.Proofs.ProbeArguments

/-!
What a payload tells about a node. The written name of a node is read back to the node; other names
may be read to the same node, and of the facts under all of them those under the last count. So a
payload under written names is a map from nodes, and nothing of it is lost.
-/

namespace SpecUpgrade

namespace Identity

/-! ## Names -/

/-- A text is split where it has a colon and none behind it. -/
theorem splitLast_eq_some_iff {cs front back : List Char} :
    splitLast cs = some (front, back) ↔ cs = front ++ ':' :: back ∧ ':' ∉ back := by
  constructor
  · intro h
    have hsplit := List.takeWhile_append_dropWhile (p := (· != ':')) (l := cs.reverse)
    rw [splitLast] at h
    split at h
    · rename_i c rest hdrop
      obtain ⟨rfl, rfl⟩ := Prod.mk.inj (Option.some.inj h)
      have hc : c = ':' := by
        have hhead := List.head_dropWhile_not (· != ':') (l := cs.reverse) (by simp [hdrop])
        simpa [hdrop] using hhead
      rw [hdrop, hc] at hsplit
      refine ⟨?_, fun hmem => ?_⟩
      · refine List.reverse_injective (hsplit.symm.trans ?_)
        simp
      · simpa using List.mem_takeWhile_imp (List.mem_reverse.mp hmem)
    · cases h
  · rintro ⟨rfl, hback⟩
    have hnone : ∀ c ∈ back.reverse, (c != ':') = true := by
      intro c hc
      rw [bne_iff_ne]
      rintro rfl
      exact hback (List.mem_reverse.mp hc)
    simp [splitLast, List.takeWhile_append_of_pos hnone, List.dropWhile_append_of_pos hnone]

theorem not_mem_of_word? {cs : List Char} {n : Nat} (h : word? cs = some n) : ':' ∉ cs := by
  intro hmem
  simp only [word?, Option.ite_none_left_eq_some, not_or, Bool.not_eq_true, Bool.not_eq_false',
    List.all_eq_true] at h
  obtain ⟨⟨-, hdigits, -⟩, -⟩ := h
  have hcolon : ':'.isDigit = true := by
    refine hdigits _ ?_
    split
    · exact (List.mem_cons.mp hmem).resolve_left (by decide)
    · exact hmem
  exact absurd hcolon (by decide)

theorem colon_not_mem_repr (n : Nat) : ':' ∉ (Nat.repr n).toList :=
  fun hmem => absurd (Text.isDigit_of_mem_repr hmem) (by decide)

/-- Digits without a sign are read as they are. -/
theorem word?_of_isDigit {cs : List Char} (hne : cs ≠ []) (hdigits : ∀ c ∈ cs, c.isDigit = true)
    (hfits : Dump.value cs < Word.bound64) : word? cs = some (Dump.value cs) := by
  have hsign : ∀ rest, cs ≠ '+' :: rest := by
    rintro rest rfl
    exact absurd (hdigits '+' List.mem_cons_self) (by decide)
  have hall : cs.all Char.isDigit = true := List.all_eq_true.mpr hdigits
  unfold word?
  extract_lets digits value
  have hunsigned : digits = cs := by
    unfold digits
    split
    · rename_i rest
      exact absurd rfl (hsign rest)
    · rfl
  have hvalue : value = Dump.value cs := by
    unfold value
    rw [hunsigned, Dump.value]
  simp [hunsigned, hvalue, hne, hall, hfits]

theorem word?_repr {n : Nat} (h : n < Word.bound64) : word? (Nat.repr n).toList = some n := by
  have hne : (Nat.repr n).toList ≠ [] := by
    rw [Nat.toList_repr]
    exact Nat.toDigits_ne_nil
  rw [← Dump.value_repr n] at h
  rw [word?_of_isDigit hne (fun _ => Text.isDigit_of_mem_repr) h, Dump.value_repr]

/-- What names a node: its path and two numbers, in whatever way these are written. -/
theorem ofText?_eq_some_iff {key : String} {i : Identity} :
    ofText? key = some i ↔ i.path ≠ "" ∧ ∃ start stop,
      key.toList = (i.path.toList ++ ':' :: start) ++ ':' :: stop ∧
        word? start = some i.range.start ∧ word? stop = some i.range.stop := by
  constructor
  · intro h
    simp only [ofText?, Option.bind_eq_bind, Option.bind_eq_some_iff, Prod.exists,
      Option.ite_none_left_eq_some, Option.some.injEq] at h
    obtain ⟨front, stop, hback, path, start, hfront, m, hstop, n, hstart, range, hrange, hpath,
      rfl⟩ := h
    obtain ⟨hkey, -⟩ := splitLast_eq_some_iff.mp hback
    obtain ⟨rfl, -⟩ := splitLast_eq_some_iff.mp hfront
    obtain ⟨horder, heq⟩ := Option.dite_none_right_eq_some.mp hrange
    obtain rfl := Option.some.inj heq
    exact ⟨by simpa using hpath, start, stop, by simpa using hkey, hstart, hstop⟩
  · rintro ⟨hpath, start, stop, hkey, hstart, hstop⟩
    have hback := splitLast_eq_some_iff.mpr ⟨hkey, not_mem_of_word? hstop⟩
    have hfront : splitLast (i.path.toList ++ ':' :: start) = some (i.path.toList, start) :=
      splitLast_eq_some_iff.mpr ⟨rfl, not_mem_of_word? hstart⟩
    have hrange : Span.ofBounds? i.range.start i.range.stop = some i.range :=
      dif_pos i.range.start_le_stop
    simp [ofText?, hback, hfront, hstart, hstop, hrange, hpath]

theorem toList_display (i : Identity) :
    i.display.toList = i.path.toList ++ ':' :: (Nat.repr i.range.start).toList ++
      ':' :: (Nat.repr i.range.stop).toList := by
  simp [display]

/-- The written name of a node is read back to the node. -/
theorem ofText?_display {i : Identity} (hpath : i.path ≠ "") (hstop : i.range.stop < Word.bound64) :
    ofText? i.display = some i :=
  ofText?_eq_some_iff.mpr ⟨hpath, _, _, toList_display i,
    word?_repr (Nat.lt_of_le_of_lt i.range.start_le_stop hstop), word?_repr hstop⟩

/-- No two nodes have one written name, also where that cannot be read back. -/
theorem display_inj {i j : Identity} : i.display = j.display ↔ i = j := by
  refine ⟨fun h => ?_, congrArg display⟩
  have hback (i : Identity) := splitLast_eq_some_iff.mpr
    ⟨toList_display i, colon_not_mem_repr i.range.stop⟩
  have hfront (i : Identity) := splitLast_eq_some_iff.mpr
    ⟨Eq.refl (i.path.toList ++ ':' :: (Nat.repr i.range.start).toList),
      colon_not_mem_repr i.range.start⟩
  obtain ⟨hends, hstop⟩ := Prod.mk.inj (Option.some.inj ((hback i).symm.trans (h ▸ hback j)))
  obtain ⟨hpath, hstart⟩ := Prod.mk.inj (Option.some.inj ((hfront i).symm.trans (hends ▸ hfront j)))
  rw [String.toList_inj] at hpath hstart hstop
  obtain ⟨path, range⟩ := i
  obtain rfl : path = j.path := hpath
  obtain rfl : range = j.range :=
    Span.eq_of_bounds (Nat.repr_inj.mp hstart) (Nat.repr_inj.mp hstop)
  rfl

end Identity

namespace Facts

open Json (Form)

/-! ## Maps -/

/-- In a list in order the first member of a kind is the one with none of the kind before it. -/
theorem find?_eq_some_iff_least {α : Type} {r : α → α → Prop} (hr : ∀ x y, r x y → ¬ r y x)
    {p : α → Bool} {xs : List α} (h : xs.Pairwise r) {x : α} :
    xs.find? p = some x ↔ x ∈ xs ∧ p x = true ∧ ∀ y ∈ xs, p y = true → ¬ r y x := by
  induction xs with
  | nil => simp
  | cons z xs ih =>
    obtain ⟨hfirst, hrest⟩ := List.pairwise_cons.mp h
    rw [List.find?_cons]
    split
    · rename_i hz
      constructor
      · rintro ⟨⟩
        refine ⟨List.mem_cons_self, hz, List.forall_mem_cons.mpr ⟨fun _ hxx => hr x x hxx hxx, ?_⟩⟩
        exact fun y hy _ => hr x y (hfirst y hy)
      · rintro ⟨hx, -, hleast⟩
        rcases List.mem_cons.mp hx with rfl | hx
        · rfl
        · exact absurd (hfirst x hx) (hleast z List.mem_cons_self hz)
    · rename_i hz
      have hother : p x = true → x ≠ z := by
        rintro hx rfl
        exact absurd hx (Bool.eq_false_iff.mp hz)
      rw [ih hrest, List.forall_mem_cons]
      constructor
      · rintro ⟨hx, hpx, hleast⟩
        exact ⟨List.mem_cons_of_mem _ hx, hpx, fun hpz => absurd hpz (Bool.eq_false_iff.mp hz),
          hleast⟩
      · rintro ⟨hx, hpx, -, hleast⟩
        exact ⟨(List.mem_cons.mp hx).resolve_left (hother hpx), hpx, hleast⟩

theorem exists_of_mem_mapM {α β : Type} {f : α → Option β} {xs : List α} {ys : List β}
    (h : xs.mapM f = some ys) {y : β} (hy : y ∈ ys) : ∃ x ∈ xs, f x = some y := by
  induction xs generalizing ys with
  | nil =>
    obtain rfl : [] = ys := Option.some.inj h
    cases hy
  | cons x xs ih =>
    simp only [List.mapM_cons, Option.bind_eq_bind, Option.bind_eq_some_iff, Option.pure_def,
      Option.some.injEq] at h
    obtain ⟨z, hz, zs, hzs, rfl⟩ := h
    rcases List.mem_cons.mp hy with rfl | hy
    · exact ⟨x, List.mem_cons_self, hz⟩
    · obtain ⟨x', hx', heq⟩ := ih hzs hy
      exact ⟨x', List.mem_cons_of_mem _ hx', heq⟩

/-- The keys of a map come in order. -/
theorem mapOf?_ascending {α : Type} {value? : Form → Option α} {form : Form}
    {entries : List (String × α)} (h : mapOf? value? form = some entries) :
    (entries.map (·.1)).Pairwise (· < ·) := by
  unfold mapOf? at h
  split at h
  · obtain ⟨read, -, heq⟩ := Option.bind_eq_some_iff.mp h
    obtain rfl := Option.some.inj heq
    exact SortedMap.ofList_ascending read
  · cases h

/-- The values of a map are what is read. -/
theorem exists_of_mem_mapOf? {α : Type} {value? : Form → Option α} {form : Form}
    {entries : List (String × α)} (h : mapOf? value? form = some entries) {e : String × α}
    (he : e ∈ entries) : ∃ value, value? value = some e.2 := by
  unfold mapOf? at h
  split at h
  · obtain ⟨read, hread, heq⟩ := Option.bind_eq_some_iff.mp h
    obtain rfl := Option.some.inj heq
    obtain ⟨⟨key, value⟩, -, hvalue⟩ := exists_of_mem_mapM hread (SortedMap.mem_of_mem_ofList he)
    simp only [Option.bind_eq_bind, Option.bind_eq_some_iff, Option.pure_def,
      Option.some.injEq] at hvalue
    obtain ⟨text, -, v, hv, rfl⟩ := hvalue
    exact ⟨value, hv⟩
  · cases h

variable {text : String} {entries : List (String × List (String × Fact))}

theorem decode?_ascending (h : decode? text = some entries) :
    (entries.map (·.1)).Pairwise (· < ·) := by
  obtain ⟨form, -, hform⟩ := Option.bind_eq_some_iff.mp h
  exact mapOf?_ascending hform

theorem decode?_facts_ascending (h : decode? text = some entries) {e : String × List (String × Fact)}
    (he : e ∈ entries) : (e.2.map (·.1)).Pairwise (· < ·) := by
  obtain ⟨form, -, hform⟩ := Option.bind_eq_some_iff.mp h
  obtain ⟨value, hvalue⟩ := exists_of_mem_mapOf? hform he
  exact mapOf?_ascending hvalue

/-! ## Loading -/

theorem recorded?_set (f : Facts) (i j : Identity) (facts : List (String × Fact)) :
    (f.set i facts).recorded? j = if j = i then some facts else f.recorded? j := by
  rw [recorded?, set, List.find?_append, List.find?_singleton]
  by_cases hj : j = i
  · have hnone : (f.entries.filter (·.1 ≠ i)).find? (·.1 = j) = none :=
      List.find?_eq_none.mpr fun e he => by simpa [hj] using (List.mem_filter.mp he).2
    rw [hnone]
    simp [hj]
  · have hkept : (f.entries.filter (·.1 ≠ i)).find? (·.1 = j) = f.entries.find? (·.1 = j) := by
      rw [List.find?_filter]
      congr 1
      funext e
      by_cases he : e.1 = j <;> simp [he, hj]
    rw [hkept, if_neg (by simpa using Ne.symm hj), Option.or_none, if_neg hj, recorded?]

theorem size_set {f : Facts} {i : Identity} (h : f.recorded? i = none)
    (facts : List (String × Fact)) : (f.set i facts).size = f.size + 1 := by
  rw [recorded?, Option.map_eq_none_iff, List.find?_eq_none] at h
  have hkept : f.entries.filter (·.1 ≠ i) = f.entries :=
    List.filter_eq_self.mpr fun e he => by simpa using h e he
  rw [size, set, hkept, List.length_append, List.length_singleton, size]

/-- Loading stops at the first key that names no node. -/
theorem ofEntries_eq_error_iff {f : Facts} {error : PayloadError} :
    ofEntries f entries = .error error ↔
      ∃ e, entries.find? (fun e => (Identity.ofText? e.1).isNone) = some e ∧
        error = .invalidIdentity e.1 := by
  induction entries generalizing f with
  | nil => simp [ofEntries]
  | cons e entries ih =>
    obtain ⟨key, facts⟩ := e
    rw [ofEntries, List.find?_cons]
    cases hkey : Identity.ofText? key with
    | none => simp [eq_comm]
    | some i => simpa using ih

/-- What is recorded about a node stands under the last key that names it. -/
theorem recorded?_ofEntries {f g : Facts} (h : ofEntries f entries = .ok g) (i : Identity) :
    g.recorded? i =
      ((entries.reverse.find? (fun e => Identity.ofText? e.1 = some i)).map (·.2)).or
        (f.recorded? i) := by
  induction entries generalizing f with
  | nil =>
    obtain rfl : f = g := Except.ok.inj h
    rfl
  | cons e entries ih =>
    obtain ⟨key, facts⟩ := e
    rw [ofEntries] at h
    split at h
    · cases h
    · rename_i j hkey
      -- A key further behind outdoes this one, which in turn outdoes what was there before.
      rw [ih h, recorded?_set, List.reverse_cons, List.find?_append, List.find?_singleton, hkey]
      cases entries.reverse.find? (fun e => Identity.ofText? e.1 = some i) with
      | some e => rfl
      | none => by_cases hi : i = j <;> simp [hi, Ne.symm]

/-- With no two keys for one node, every key adds a node. -/
theorem size_ofEntries {f g : Facts} (h : ofEntries f entries = .ok g)
    (hdistinct : entries.Pairwise fun a b => Identity.ofText? a.1 ≠ Identity.ofText? b.1)
    (hnew : ∀ e ∈ entries, ∀ i, Identity.ofText? e.1 = some i → f.recorded? i = none) :
    g.size = f.size + entries.length := by
  induction entries generalizing f with
  | nil =>
    obtain rfl : f = g := Except.ok.inj h
    rfl
  | cons e entries ih =>
    obtain ⟨key, facts⟩ := e
    rw [ofEntries] at h
    split at h
    · cases h
    · rename_i j hkey
      obtain ⟨hfirst, hrest⟩ := List.pairwise_cons.mp hdistinct
      rw [ih h hrest, size_set (hnew _ List.mem_cons_self j hkey), List.length_cons]
      · omega
      · intro e he i hi
        have hne : i ≠ j := by
          rintro rfl
          exact hfirst e he (hkey.trans hi.symm)
        rw [recorded?_set, if_neg hne]
        exact hnew e (List.mem_cons_of_mem _ he) i hi

/-- The first of the keys that name no node, in the order of their bytes. -/
structure FirstUnnamed (entries : List (String × List (String × Fact))) (key : String) : Prop where
  mem : key ∈ entries.map (·.1)
  unnamed : Identity.ofText? key = none
  least : ∀ e ∈ entries, Identity.ofText? e.1 = none → Utf8.encode key ≤ Utf8.encode e.1

/-- The last of the keys that name a node, in the order of their bytes, and the facts under it. -/
structure LastNamed (entries : List (String × List (String × Fact))) (i : Identity) (key : String)
    (facts : List (String × Fact)) : Prop where
  mem : (key, facts) ∈ entries
  named : Identity.ofText? key = some i
  greatest : ∀ e ∈ entries, Identity.ofText? e.1 = some i → Utf8.encode e.1 ≤ Utf8.encode key

theorem encode_le_iff_not_lt {a b : String} : Utf8.encode a ≤ Utf8.encode b ↔ ¬ b < a := by
  rw [Utf8.encode_le_iff, String.not_lt]

theorem load_eq_ofEntries (h : decode? text = some entries) :
    load text = ofEntries empty entries := by
  rw [load, h]

/-- Loading fails for the first key that names no node. -/
theorem load_eq_error_iff (h : decode? text = some entries) {error : PayloadError} :
    load text = .error error ↔ ∃ key, FirstUnnamed entries key ∧ error = .invalidIdentity key := by
  have hr (a b : String × List (String × Fact)) : a.1 < b.1 → ¬ b.1 < a.1 := String.lt_asymm
  have hfind {e} := find?_eq_some_iff_least hr (List.pairwise_map.mp (decode?_ascending h))
    (p := fun e => (Identity.ofText? e.1).isNone) (x := e)
  simp only [Option.isNone_iff_eq_none, ← encode_le_iff_not_lt] at hfind
  rw [load_eq_ofEntries h, ofEntries_eq_error_iff]
  constructor
  · rintro ⟨e, he, rfl⟩
    obtain ⟨hmem, hunnamed, hleast⟩ := hfind.mp he
    exact ⟨e.1, ⟨List.mem_map_of_mem hmem, hunnamed, hleast⟩, rfl⟩
  · rintro ⟨key, hfirst, rfl⟩
    obtain ⟨e, he, rfl⟩ := List.mem_map.mp hfirst.mem
    exact ⟨e, hfind.mpr ⟨he, hfirst.unnamed, hfirst.least⟩, rfl⟩

theorem exists_load_eq_error_iff (h : decode? text = some entries) :
    (∃ error, load text = .error error) ↔ ∃ e ∈ entries, Identity.ofText? e.1 = none := by
  simp only [load_eq_ofEntries h, ofEntries_eq_error_iff, ← Option.isNone_iff_eq_none,
    ← List.find?_isSome, Option.isSome_iff_exists]
  constructor
  · rintro ⟨-, e, he, -⟩
    exact ⟨e, he⟩
  · rintro ⟨e, he⟩
    exact ⟨_, e, he, rfl⟩

theorem exists_load_eq_ok (h : decode? text = some entries)
    (hnamed : ∀ e ∈ entries, Identity.ofText? e.1 ≠ none) : ∃ f, load text = .ok f := by
  cases hload : load text with
  | ok f => exact ⟨f, rfl⟩
  | error error =>
    obtain ⟨e, he, hnone⟩ := (exists_load_eq_error_iff h).mp ⟨error, hload⟩
    exact absurd hnone (hnamed e he)

theorem recorded?_of_load (h : decode? text = some entries) {f : Facts}
    (hload : load text = .ok f) (i : Identity) :
    f.recorded? i =
      (entries.reverse.find? (fun e => Identity.ofText? e.1 = some i)).map (·.2) := by
  rw [load_eq_ofEntries h] at hload
  rw [recorded?_ofEntries hload]
  exact Option.or_none

/-- The records of a node are those under the last key that names it. -/
theorem recorded?_eq_some_iff (h : decode? text = some entries) {f : Facts}
    (hload : load text = .ok f) {i : Identity} {facts : List (String × Fact)} :
    f.recorded? i = some facts ↔ ∃ key, LastNamed entries i key facts := by
  -- The keys come in order, so the greatest of a kind is the first one from behind.
  have hr (a b : String × List (String × Fact)) : b.1 < a.1 → ¬ a.1 < b.1 := String.lt_asymm
  have hfind {e} := find?_eq_some_iff_least hr
    (List.pairwise_reverse.mpr (List.pairwise_map.mp (decode?_ascending h)))
    (p := fun e => Identity.ofText? e.1 = some i) (x := e)
  simp only [decide_eq_true_eq, List.mem_reverse, ← encode_le_iff_not_lt] at hfind
  rw [recorded?_of_load h hload, Option.map_eq_some_iff]
  constructor
  · rintro ⟨e, he, rfl⟩
    obtain ⟨hmem, hnamed, hgreatest⟩ := hfind.mp he
    exact ⟨e.1, hmem, hnamed, hgreatest⟩
  · rintro ⟨key, hlast⟩
    exact ⟨(key, facts), hfind.mpr ⟨hlast.mem, hlast.named, hlast.greatest⟩, rfl⟩

theorem recorded?_eq_none_iff (h : decode? text = some entries) {f : Facts}
    (hload : load text = .ok f) {i : Identity} :
    f.recorded? i = none ↔ ∀ e ∈ entries, Identity.ofText? e.1 ≠ some i := by
  rw [recorded?_of_load h hload, Option.map_eq_none_iff, List.find?_eq_none]
  simp

/-! ## Asking -/

variable {f : Facts} {t : Tree} {node : Nat}

theorem ran_iff (h : decode? text = some entries) (hload : load text = .ok f) :
    f.ran t node = true ↔ ∃ e ∈ entries, Identity.ofText? e.1 = some (Identity.ofNode t node) := by
  rw [ran, Option.isSome_iff_ne_none, ne_eq, recorded?_eq_none_iff h hload]
  simp

/-- Of a node that did not run nothing is known. -/
theorem absent_of_not_ran (hran : f.ran t node = false) (key : String) :
    f.fact? t node key = none ∧ f.value? t node key = none ∧ f.truthy? t node key = none ∧
      f.present t node key = false := by
  rw [ran, Option.isSome_eq_false_iff, Option.isNone_iff_eq_none] at hran
  have hfact : f.fact? t node key = none := by rw [fact?, hran]; rfl
  have hvalue : f.value? t node key = none := by rw [value?, hfact]
  exact ⟨hfact, hvalue, by rw [truthy?, hvalue]; rfl, by rw [present, hvalue]; rfl⟩

theorem fact?_eq_some_iff (h : decode? text = some entries) (hload : load text = .ok f)
    {key : String} {fact : Fact} :
    f.fact? t node key = some fact ↔ ∃ name facts,
      LastNamed entries (Identity.ofNode t node) name facts ∧ (key, fact) ∈ facts := by
  rw [fact?, Option.bind_eq_bind, Option.bind_eq_some_iff]
  simp only [recorded?_eq_some_iff h hload]
  constructor
  · rintro ⟨facts, ⟨name, hlast⟩, hfind⟩
    have hascending := decode?_facts_ascending h hlast.mem
    exact ⟨name, facts, hlast, (SortedMap.find?_eq_some_iff hascending).mp hfind⟩
  · rintro ⟨name, facts, hlast, hmem⟩
    have hascending := decode?_facts_ascending h hlast.mem
    exact ⟨facts, ⟨name, hlast⟩, (SortedMap.find?_eq_some_iff hascending).mpr hmem⟩

/-! ## Written names -/

/-- Every key is the written name of a node. -/
def Displayed (entries : List (String × List (String × Fact))) : Prop :=
  ∀ e ∈ entries, ∃ i : Identity, i.path ≠ "" ∧ i.range.stop < Word.bound64 ∧ e.1 = i.display

/-- A key that is the written name of a node names that node and no other. -/
theorem Displayed.ofText?_eq_some_iff (hdisplayed : Displayed entries)
    {e : String × List (String × Fact)} (he : e ∈ entries) {i : Identity} :
    Identity.ofText? e.1 = some i ↔ e.1 = i.display := by
  obtain ⟨j, hpath, hstop, hkey⟩ := hdisplayed e he
  rw [hkey, Identity.ofText?_display hpath hstop, Option.some.injEq, Identity.display_inj]

theorem Displayed.lastNamed_iff (hdisplayed : Displayed entries) {i : Identity} {key : String}
    {facts : List (String × Fact)} :
    LastNamed entries i key facts ↔ key = i.display ∧ (key, facts) ∈ entries := by
  constructor
  · intro hlast
    exact ⟨(hdisplayed.ofText?_eq_some_iff hlast.mem).mp hlast.named, hlast.mem⟩
  · rintro ⟨hkey, hmem⟩
    refine ⟨hmem, (hdisplayed.ofText?_eq_some_iff hmem).mpr hkey, fun e he hnamed => ?_⟩
    rw [(hdisplayed.ofText?_eq_some_iff he).mp hnamed, hkey]
    exact List.le_refl _

theorem Displayed.size_eq (hdisplayed : Displayed entries) (h : decode? text = some entries)
    (hload : load text = .ok f) : f.size = entries.length := by
  rw [load_eq_ofEntries h] at hload
  have hdistinct : entries.Pairwise fun a b => Identity.ofText? a.1 ≠ Identity.ofText? b.1 := by
    refine (List.pairwise_map.mp (decode?_ascending h)).imp_of_mem fun {a b} ha hb hlt heq => ?_
    obtain ⟨i, hpath, hstop, hkey⟩ := hdisplayed a ha
    have hnamed := (hdisplayed.ofText?_eq_some_iff ha).mpr hkey
    rw [hkey, (hdisplayed.ofText?_eq_some_iff hb).mp (heq ▸ hnamed)] at hlt
    exact String.lt_irrefl _ hlt
  rw [size_ofEntries hload hdistinct fun _ _ _ _ => rfl]
  exact Nat.zero_add _

/-! ## A payload with two names of one node -/

/-- The characters stand for themselves in a string literal. -/
def Plain (cs : List Char) : Prop := ∀ c ∈ cs, c ≠ '"' ∧ c ≠ '\\' ∧ 0x20 ≤ c.toNat

theorem readPieces_plain {cs : List Char} (h : Plain cs) (rest : List Char) :
    Json.readPieces (cs ++ '"' :: rest) = some (cs.map .char, rest) := by
  induction cs with
  | nil => simp [Json.readPieces]
  | cons c cs ih =>
    obtain ⟨⟨hquote, hslash, hvisible⟩, hrest⟩ := List.forall_mem_cons.mp h
    have hvisible : ¬c.toNat < 0x20 := by omega
    rw [List.cons_append, Json.readPieces]
    · simp [hvisible, ih hrest]
    · exact hquote
    · rintro a b d e rest' rfl
      exact absurd rfl hslash
    · rintro a rest' rfl
      exact absurd rfl hslash

/-- A payload with a fact under the name of a node and none under another key. -/
def twoKeys (second : String) : String :=
  String.join ["\x7b\"a:1:2\":\x7b\"k\":[]\x7d,\"", second, "\":\x7b\x7d\x7d"]

theorem form_twoKeys {second : String} (hplain : Plain second.toList)
    (hlength : second.toList.length = 6) : Form.ofText? (twoKeys second) =
      some (.object [("a:1:2".toList.map .char, .object [("k".toList.map .char, .array [])]),
        (second.toList.map .char, .object [])]) := by
  let later := second.toList ++ '"' :: ":\x7b\x7d\x7d".toList
  have hlist : Json.readForm 58 ("[]\x7d,\"".toList ++ later) =
      some (.array [], '\x7d' :: (",\"".toList ++ later)) := by
    rw [Json.readForm]
    rfl
  have hinner : Json.readForm 60 ("\x7b\"k\":[]\x7d,\"".toList ++ later) =
      some (.object [("k".toList.map .char, .array [])], ',' :: ("\"".toList ++ later)) := by
    have hkey : Plain "k".toList := by simp [Plain]
    exact Json.readForm_object
      (Json.readMembers_last (readPieces_plain hkey _) (List.forall_mem_nil _) hlist)
  have hempty : Json.readForm 59 "\x7b\x7d\x7d".toList = some (.object [], '\x7d' :: []) := by
    rw [Json.readForm]
    rfl
  have hfirst : Plain "a:1:2".toList := by simp [Plain]
  have hlast := Json.readMembers_last (readPieces_plain hplain _) (List.forall_mem_nil _) hempty
  have hmore := Json.readMembers_more (readPieces_plain hfirst _) hinner hlast
  have hread : Json.readForm 62 ("\x7b\"a:1:2\":\x7b\"k\":[]\x7d,\"".toList ++ later) = some (.object
      [("a:1:2".toList.map .char, .object [("k".toList.map .char, .array [])]),
        (second.toList.map .char, .object [])], []) :=
    Json.readForm_object hmore
  have htext : (twoKeys second).toList =
      "\x7b\"a:1:2\":\x7b\"k\":[]\x7d,\"".toList ++ later := by
    simp [twoKeys, String.join, later]
  have hfuel : 2 * (twoKeys second).toList.length + 2 = 62 := by
    rw [htext, List.length_append, List.length_append, hlength]
    rfl
  rw [Form.ofText?, hfuel, htext, hread]
  rfl

/-- Two keys that name one node. -/
theorem decode?_signed : decode? (twoKeys "a:+1:2") =
    some [("a:+1:2", []), ("a:1:2", [("k", ⟨.null, none, none⟩)])] := by
  rw [decode?, form_twoKeys (by simp [Plain]) rfl]
  cbv

/-- The written names of two nodes. -/
theorem decode?_displayed : decode? (twoKeys "a:3:10") =
    some [("a:1:2", [("k", ⟨.null, none, none⟩)]), ("a:3:10", [])] := by
  rw [decode?, form_twoKeys (by simp [Plain]) rfl]
  cbv

/-! ## Payloads as lookups -/

/-- A payload is a lookup by node. The written name of a node whose bounds fit a machine word is read
back to it. Loading fails if and only if some key names no node, and then for the least of them. Else
the records of a node are those under the greatest key that names it, and nothing is known about a
node that no key names. Under written names nothing is lost: there are as many nodes as keys, and a
fact is found for a node and a key if and only if it stands under the name of the node and the key. -/
theorem load_as_lookup (h : decode? text = some entries) :
    (∀ i : Identity, i.path ≠ "" → i.range.stop < Word.bound64 →
      Identity.ofText? i.display = some i) ∧
    ((∃ error, load text = .error error) ↔ ∃ e ∈ entries, Identity.ofText? e.1 = none) ∧
    (∀ error, load text = .error error ↔
      ∃ key, FirstUnnamed entries key ∧ error = .invalidIdentity key) ∧
    (∀ f, load text = .ok f →
      (∀ i facts, f.recorded? i = some facts ↔ ∃ key, LastNamed entries i key facts) ∧
      ∀ t node,
        (f.ran t node = true ↔
          ∃ e ∈ entries, Identity.ofText? e.1 = some (Identity.ofNode t node)) ∧
        (∀ key fact, f.fact? t node key = some fact ↔ ∃ name facts,
          LastNamed entries (Identity.ofNode t node) name facts ∧ (key, fact) ∈ facts) ∧
        (f.ran t node = false → ∀ key, f.fact? t node key = none ∧ f.value? t node key = none ∧
          f.truthy? t node key = none ∧ f.present t node key = false)) ∧
    (Displayed entries → ∃ f, load text = .ok f ∧ f.size = entries.length ∧
      ∀ t node,
        (f.ran t node = true ↔ (Identity.ofNode t node).display ∈ entries.map (·.1)) ∧
        ∀ key fact, f.fact? t node key = some fact ↔ ∃ facts,
          ((Identity.ofNode t node).display, facts) ∈ entries ∧ (key, fact) ∈ facts) := by
  refine ⟨fun i => Identity.ofText?_display, exists_load_eq_error_iff h,
    fun error => load_eq_error_iff h, fun f hload => ?_, fun hdisplayed => ?_⟩
  · exact ⟨fun i facts => recorded?_eq_some_iff h hload, fun t node => ⟨ran_iff h hload,
      fun key fact => fact?_eq_some_iff h hload, absent_of_not_ran⟩⟩
  · have hnamed : ∀ e ∈ entries, Identity.ofText? e.1 ≠ none := by
      intro e he hnone
      obtain ⟨i, hpath, hstop, hkey⟩ := hdisplayed e he
      rw [(hdisplayed.ofText?_eq_some_iff he).mpr hkey] at hnone
      cases hnone
    obtain ⟨f, hload⟩ := exists_load_eq_ok h hnamed
    refine ⟨f, hload, hdisplayed.size_eq h hload, fun t node => ⟨?_, fun key fact => ?_⟩⟩
    · rw [ran_iff h hload, List.mem_map]
      exact exists_congr fun e => and_congr_right fun he => hdisplayed.ofText?_eq_some_iff he
    · rw [fact?_eq_some_iff h hload]
      simp only [hdisplayed.lastNamed_iff]
      constructor
      · rintro ⟨name, facts, ⟨rfl, hmem⟩, hfact⟩
        exact ⟨facts, hmem, hfact⟩
      · rintro ⟨facts, hmem, hfact⟩
        exact ⟨_, facts, ⟨rfl, hmem⟩, hfact⟩

/-- A payload whose keys name one node and one whose keys are the written names of two. -/
theorem load_as_lookup_twofold :
    (decode? (twoKeys "a:+1:2") =
        some [("a:+1:2", []), ("a:1:2", [("k", ⟨.null, none, none⟩)])] ∧
      ∃ f, load (twoKeys "a:+1:2") = .ok f ∧
        f.recorded? ⟨"a", 1, 2, by decide⟩ = some [("k", ⟨.null, none, none⟩)]) ∧
    decode? (twoKeys "a:3:10") =
        some [("a:1:2", [("k", ⟨.null, none, none⟩)]), ("a:3:10", [])] ∧
      Displayed [("a:1:2", [("k", ⟨.null, none, none⟩)]), ("a:3:10", [])] ∧
      ∃ f t, load (twoKeys "a:3:10") = .ok f ∧ f.size = 2 ∧
        Tree.ofDump "a" "xp" "(send @1..2 nil :p)" = .ok t ∧
        f.ran t 0 = true ∧ f.fact? t 0 "k" = some ⟨.null, none, none⟩ := by
  constructor
  · obtain ⟨-, hfails, -, hloaded, -⟩ := load_as_lookup decode?_signed
    have hsigned : Identity.ofText? "a:+1:2" = some ⟨"a", 1, 2, by decide⟩ := by cbv
    have hplain : Identity.ofText? "a:1:2" = some ⟨"a", 1, 2, by decide⟩ := by cbv
    refine ⟨decode?_signed, ?_⟩
    cases hload : load (twoKeys "a:+1:2") with
    | error error =>
      have hnone := hfails.mp ⟨error, hload⟩
      simp [hsigned, hplain] at hnone
    | ok f =>
      refine ⟨f, rfl, ((hloaded f hload).1 _ _).mpr ⟨"a:1:2", by simp, hplain, ?_⟩⟩
      have hle : "a:+1:2" ≤ "a:1:2" := by decide
      simp [Utf8.encode_le_iff, hle]
  · obtain ⟨-, -, -, -, hlossless⟩ := load_as_lookup decode?_displayed
    have hdisplayed : Displayed [("a:1:2", [("k", ⟨.null, none, none⟩)]), ("a:3:10", [])] := by
      intro e he
      rcases List.mem_pair.mp he with rfl | rfl
      · exact ⟨⟨"a", 1, 2, by decide⟩, by decide, by decide, by cbv⟩
      · exact ⟨⟨"a", 3, 10, by decide⟩, by decide, by decide, by cbv⟩
    obtain ⟨f, hload, hsize, hasked⟩ := hlossless hdisplayed
    have hname : (Tree.ofDump "a" "xp" "(send @1..2 nil :p)").map
        (fun t => (Identity.ofNode t 0).display) = .ok "a:1:2" := by cbv
    cases hread : Tree.ofDump "a" "xp" "(send @1..2 nil :p)" with
    | error e =>
      rw [hread] at hname
      cases hname
    | ok t =>
      rw [hread] at hname
      have hname : (Identity.ofNode t 0).display = "a:1:2" := Except.ok.inj hname
      obtain ⟨hran, hfact⟩ := hasked t 0
      rw [hname] at hran hfact
      exact ⟨decode?_displayed, hdisplayed, f, t, hload, hsize, rfl, hran.mpr (by simp),
        (hfact "k" _).mpr ⟨_, List.mem_cons_self, List.mem_cons_self⟩⟩

end Facts
end SpecUpgrade
