import SpecUpgrade.Proofs.Submission

/-!
Which edits come out at an offset and in what order. The one sorted list that rendering works off
holds, for every offset, the insertions after ranges that end there, then the insertions before
ranges that start there, then the replacements; and when no two edits conflict, an edit starts
only where those before it have ended.
-/

namespace SpecUpgrade

/-! ## Stable sorting -/

section Sorting
variable {α : Type} {le : α → α → Bool}

/-- Sorting keeps the order that a selection has on its own. -/
theorem filter_mergeSort (trans : ∀ a b c : α, le a b → le b c → le a c)
    (total : ∀ a b : α, le a b || le b a) (p : α → Bool) (l : List α) :
    (l.mergeSort le).filter p = (l.filter p).mergeSort le := by
  induction l with
  | nil => simp
  | cons a l ih =>
    obtain ⟨front, back, hcons, hl, hfront⟩ := List.mergeSort_cons trans total a l
    have hsorted := List.pairwise_mergeSort trans total (a :: l)
    rw [hcons] at hsorted
    have hback : ∀ b ∈ back, le a b = true :=
      (List.pairwise_cons.mp (List.pairwise_append.mp hsorted).2.1).1
    rw [hcons, List.filter_append]
    rw [hl, List.filter_append] at ih
    by_cases hp : p a = true
    · rw [List.filter_cons_of_pos hp, List.filter_cons_of_pos hp]
      obtain ⟨front', back', hcons', hl', hfront'⟩ := List.mergeSort_cons trans total a (l.filter p)
      have hsorted' := List.pairwise_mergeSort trans total (a :: l.filter p)
      rw [hcons'] at hsorted'
      have hback' : ∀ b ∈ back', le a b = true :=
        (List.pairwise_cons.mp (List.pairwise_append.mp hsorted').2.1).1
      rw [hl'] at ih
      -- both cut the same list where the elements stop to precede `a`
      have hcut : front.filter p = front' ∧ back.filter p = back' := by
        have cut : ∀ xs ys : List α, (∀ b ∈ xs, (!le a b) = true) → (∀ b ∈ ys, le a b = true) →
            (xs ++ ys).takeWhile (!le a ·) = xs := by
          intro xs ys hxs hys
          rw [List.takeWhile_append_of_pos hxs]
          cases ys with
          | nil => simp
          | cons y ys => simp [hys y (by simp)]
        have h1 := cut (front.filter p) (back.filter p)
          (fun b hb => hfront b (List.mem_filter.mp hb).1)
          (fun b hb => hback b (List.mem_filter.mp hb).1)
        have h2 := cut front' back' hfront' hback'
        rw [ih, h2] at h1
        rw [h1] at ih ⊢
        exact ⟨rfl, List.append_cancel_left ih⟩
      rw [hcons', hcut.1, hcut.2]
    · rw [List.filter_cons_of_neg hp, List.filter_cons_of_neg hp, ih]

/-- The order does not tell the two apart. -/
def tied (le : α → α → Bool) (a b : α) : Bool := le a b && le b a

theorem tied_self (total : ∀ a b : α, le a b || le b a) (a : α) : tied le a a = true := by
  simpa [tied] using total a a

theorem mem_iff_of_filter_tied (total : ∀ a b : α, le a b || le b a) {xs ys : List α}
    (h : ∀ a, xs.filter (tied le a) = ys.filter (tied le a)) (a : α) : a ∈ xs ↔ a ∈ ys := by
  have hmem := congrArg (a ∈ ·) (h a)
  simpa [List.mem_filter, tied_self total] using hmem

/-- Sorted lists are the same when they agree on every class of elements that the order does not
tell apart. -/
theorem eq_of_filter_tied (total : ∀ a b : α, le a b || le b a) {xs ys : List α}
    (hxs : xs.Pairwise fun a b => le a b) (hys : ys.Pairwise fun a b => le a b)
    (h : ∀ a, xs.filter (tied le a) = ys.filter (tied le a)) : xs = ys := by
  have mem := mem_iff_of_filter_tied total h
  induction xs generalizing ys with
  | nil => exact (List.eq_nil_iff_forall_not_mem.mpr fun b hb => by simpa using (mem b).mpr hb).symm
  | cons a xs ih =>
    cases ys with
    | nil => exact absurd ((mem a).mp (by simp)) (by simp)
    | cons b ys =>
      obtain ⟨ha, hxsTail⟩ := List.pairwise_cons.mp hxs
      obtain ⟨hb, hysTail⟩ := List.pairwise_cons.mp hys
      -- each of the two first elements comes before all others
      have hab : le a b = true := by
        rcases List.mem_cons.mp ((mem b).mpr (by simp)) with rfl | hmem
        · simpa using total b b
        · exact ha b hmem
      have hba : le b a = true := by
        rcases List.mem_cons.mp ((mem a).mp (by simp)) with rfl | hmem
        · simpa using total a a
        · exact hb a hmem
      have hfirst := h a
      rw [List.filter_cons_of_pos (tied_self total a),
        List.filter_cons_of_pos (by simp [tied, hab, hba])] at hfirst
      obtain ⟨rfl, -⟩ := List.cons.inj hfirst
      have htail : ∀ c, xs.filter (tied le c) = ys.filter (tied le c) := by
        intro c
        have hat := h c
        by_cases hc : tied le c a = true
        · rw [List.filter_cons_of_pos hc, List.filter_cons_of_pos hc] at hat
          exact (List.cons.inj hat).2
        · rwa [List.filter_cons_of_neg hc, List.filter_cons_of_neg hc] at hat
      rw [ih hxsTail hysTail htail (mem_iff_of_filter_tied total htail)]

/-- Of the order of a list sorting keeps only that of elements which it does not tell apart. -/
theorem mergeSort_eq_of_filter_tied (trans : ∀ a b c : α, le a b → le b c → le a c)
    (total : ∀ a b : α, le a b || le b a) {xs ys : List α}
    (h : ∀ a, xs.filter (tied le a) = ys.filter (tied le a)) :
    xs.mergeSort le = ys.mergeSort le := by
  refine eq_of_filter_tied total (List.pairwise_mergeSort trans total xs)
    (List.pairwise_mergeSort trans total ys) fun a => ?_
  rw [filter_mergeSort trans total, filter_mergeSort trans total, h a]

/-- What two orders agree on they sort alike. -/
theorem mergeSort_congr {le' : α → α → Bool} {l : List α}
    (h : ∀ a ∈ l, ∀ b ∈ l, le a b = le' a b) : l.mergeSort le = l.mergeSort le' := by
  simpa using List.map_mergeSort (f := id) h

/-- A list whose keys ascend falls into the parts of equal keys. -/
theorem filter_key_append {key : α → Nat} {l : List α}
    (h : l.Pairwise fun a b => key a ≤ key b) (hkey : ∀ a ∈ l, key a < 3) :
    l.filter (key · == 0) ++ l.filter (key · == 1) ++ l.filter (key · == 2) = l := by
  induction l with
  | nil => rfl
  | cons a l ih =>
    obtain ⟨ha, hl⟩ := List.pairwise_cons.mp h
    have hrest := ih hl fun b hb => hkey b (by simp [hb])
    have none : ∀ k < key a, l.filter (key · == k) = [] := by
      intro k hk
      rw [List.filter_eq_nil_iff]
      intro b hb
      have := ha b hb
      simp only [beq_iff_eq]
      omega
    have hcase : key a = 0 ∨ key a = 1 ∨ key a = 2 := by
      have := hkey a (by simp)
      omega
    rcases hcase with hk | hk | hk
    · simpa [List.filter_cons, hk] using hrest
    · have h0 := none 0 (by omega)
      simpa [List.filter_cons, hk, h0] using hrest
    · have h0 := none 0 (by omega)
      have h1 := none 1 (by omega)
      simpa [List.filter_cons, hk, h0, h1] using hrest

/-- Sorting a list leaves what it does not tell apart in the order of the list. -/
theorem pairwise_mergeSort_stable {first : α → α → Prop}
    (trans : ∀ a b c : α, le a b → le b c → le a c) (total : ∀ a b : α, le a b || le b a)
    {l : List α} (h : l.Pairwise first) :
    (l.mergeSort le).Pairwise fun a b => le a b = true ∧ (le b a = true → first a b) := by
  induction l with
  | nil => simp
  | cons a l ih =>
    obtain ⟨ha, hl⟩ := List.pairwise_cons.mp h
    obtain ⟨front, back, hcons, hsplit, hfront⟩ := List.mergeSort_cons trans total a l
    have hsorted := List.pairwise_mergeSort trans total (a :: l)
    have hrest := ih hl
    have hback : ∀ b ∈ back, b ∈ l := fun b hb =>
      (List.mergeSort_perm l le).mem_iff.mp (by rw [hsplit]; exact List.mem_append_right _ hb)
    rw [hcons] at hsorted ⊢
    rw [hsplit] at hrest
    obtain ⟨hs₁, hs₂, -⟩ := List.pairwise_append.mp hrest
    obtain ⟨-, hlater, hbefore⟩ := List.pairwise_append.mp hsorted
    refine List.pairwise_append.mpr ⟨hs₁, List.pairwise_cons.mpr ⟨fun b hb => ?_, hs₂⟩,
      fun b hb c hc => ?_⟩
    · exact ⟨(List.pairwise_cons.mp hlater).1 b hb, fun _ => ha b (hback b hb)⟩
    · rcases List.mem_cons.mp hc with rfl | hc
      · refine ⟨hbefore b hb c (by simp), fun hle => ?_⟩
        have := hfront b hb
        rw [hle] at this
        cases this
      · exact (List.pairwise_append.mp hrest).2.2 b hb c hc

/-- Lists whose keys ascend are the same when they are the same at every key. -/
theorem eq_of_filter_key (key : α → Nat) {xs ys : List α}
    (hxs : xs.Pairwise fun a b => key a ≤ key b) (hys : ys.Pairwise fun a b => key a ≤ key b)
    (h : ∀ k, xs.filter (key · == k) = ys.filter (key · == k)) : xs = ys := by
  have htied : ∀ a, tied (fun a b => decide (key a ≤ key b)) a = (key · == key a) := by
    intro a
    funext b
    rw [tied, Bool.eq_iff_iff, Bool.and_eq_true, decide_eq_true_eq, decide_eq_true_eq, beq_iff_eq]
    omega
  have total : ∀ a b, decide (key a ≤ key b) || decide (key b ≤ key a) := fun a b => by
    rw [Bool.or_eq_true, decide_eq_true_eq, decide_eq_true_eq]
    omega
  exact eq_of_filter_tied total (hxs.imp decide_eq_true) (hys.imp decide_eq_true) fun a => by
    rw [htied, h]

end Sorting

/-! ## The order of edits -/

theorem Span.eq_of_bounds {a b : Span} (hstart : a.start = b.start) (hstop : a.stop = b.stop) :
    a = b := by
  cases a
  cases b
  cases hstart
  cases hstop
  rfl

namespace Edit

theorem position_eq_region_start (e : Edit) : e.position = e.region.start := by
  unfold position region
  cases e.side <;> rfl

theorem position_le_region_stop (e : Edit) : e.position ≤ e.region.stop := by
  rw [position_eq_region_start]
  exact e.region.start_le_stop

theorem rank_lt_three (e : Edit) : e.rank < 3 := by
  unfold rank
  cases e.side <;> simp

/-- The order is that of position, rank and nesting, one after the other. -/
theorem comesBefore_iff (a b : Edit) :
    a.comesBefore b = true ↔ a.position < b.position ∨ a.position = b.position ∧
      (a.rank < b.rank ∨ a.rank = b.rank ∧ a.nesting ≤ b.nesting) := by
  unfold comesBefore
  split
  · rw [decide_eq_true_eq]
    omega
  · split
    · rw [decide_eq_true_eq]
      omega
    · rw [decide_eq_true_eq]
      omega

theorem comesBefore_trans (a b c : Edit) (hab : a.comesBefore b) (hbc : b.comesBefore c) :
    a.comesBefore c := by
  rw [comesBefore_iff] at *
  omega

theorem comesBefore_total (a b : Edit) : a.comesBefore b || b.comesBefore a := by
  rw [Bool.or_eq_true, comesBefore_iff, comesBefore_iff]
  omega

theorem side_eq_of_rank_eq {a b : Edit} (h : a.rank = b.rank) : a.side = b.side := by
  unfold rank at h
  cases ha : a.side <;> cases hb : b.side <;> simp_all

/-- Only edits of one anchor and side come out in the order of their submission. -/
theorem anchor_eq {a b : Edit} (hab : a.comesBefore b) (hba : b.comesBefore a) :
    a.range = b.range ∧ a.side = b.side := by
  rw [comesBefore_iff] at hab hba
  have hposition : a.position = b.position := by omega
  have hnesting : a.nesting = b.nesting := by omega
  have hside : a.side = b.side := side_eq_of_rank_eq (by omega)
  refine ⟨?_, hside⟩
  unfold position at hposition
  unfold nesting at hnesting
  rw [hside] at hposition hnesting
  cases hb : b.side <;> simp only [hb] at hposition hnesting <;>
    exact Span.eq_of_bounds (by omega) (by omega)

/-- What follows a range comes out before what precedes the next one, also where the two touch. -/
theorem after_comesBefore_before {r s : Span} {x y : String} :
    (insertAfter r x).comesBefore (insertBefore s y) = true ↔ r.stop ≤ s.start := by
  rw [comesBefore_iff]
  simp only [insertBefore, insertAfter, position, rank]
  omega

theorem region_of_replace {e : Edit} (h : e.side = .replace) : e.region = e.range := by
  simp [region, h]

theorem region_empty_of_insertion {e : Edit} (h : e.side ≠ .replace) :
    e.region.start = e.region.stop := by
  unfold region
  cases hs : e.side <;> simp_all [Span.point]

/-- Only a replacement modifies more than a point. -/
theorem side_eq_replace {e : Edit} (h : e.region.start < e.region.stop) : e.side = .replace := by
  cases hs : e.side with
  | replace => rfl
  | before =>
    have := region_empty_of_insertion (e := e) (by simp [hs])
    omega
  | after =>
    have := region_empty_of_insertion (e := e) (by simp [hs])
    omega

/-- Of two edits that may stand side by side the later one starts where the earlier has ended. -/
theorem region_stop_le_position {a b : Edit} (hab : a.comesBefore b) (h : a.Apart b) :
    a.region.stop ≤ b.position := by
  have hle := (comesBefore_iff a b).mp hab
  have hb := b.region.start_le_stop
  rw [position_eq_region_start, position_eq_region_start] at hle
  rw [position_eq_region_start]
  rcases (apart_iff a b).mp h with ⟨ha, -⟩ | hstop | hstop
  · omega
  · exact hstop
  · -- both start at one offset, where `b` ends as well
    by_cases hsa : a.side = .replace
    · by_cases hsb : b.side = .replace
      · rw [region_of_replace hsa, region_of_replace hsb] at *
        simp only [rank, nesting, hsa, hsb] at hle
        omega
      · have hrank : b.rank < a.rank := by
          cases hs : b.side <;> simp_all [rank]
        omega
    · have := region_empty_of_insertion hsa
      omega

end Edit

/-! ## The edits at an offset -/

namespace Revision

/-- Insertions never stand in each other's way. -/
theorem sound_of_insertions {source : String} {edits : List Edit}
    (h : ∀ e ∈ edits, e.range.Fits source ∧ e.side ≠ .replace) : Sound source edits := by
  have hapart : ∀ a ∈ edits, ∀ b ∈ edits, a.Apart b := fun a ha b hb =>
    (Edit.apart_iff a b).mpr (Or.inl ⟨Edit.region_empty_of_insertion (h a ha).2,
      Edit.region_empty_of_insertion (h b hb).2⟩)
  exact ⟨fun e he => (h e he).1, List.pairwise_of_forall_mem_list hapart⟩

/-- The insertions after ranges that end at the offset, the range that starts last first. -/
def closingAt (edits : List Edit) (offset : Nat) : List Edit :=
  (edits.filter fun e => e.side == .after && e.range.stop == offset).mergeSort
    fun a b => decide (b.range.start ≤ a.range.start)

/-- The insertions before ranges that start at the offset, the range that ends last first. -/
def openingAt (edits : List Edit) (offset : Nat) : List Edit :=
  (edits.filter fun e => e.side == .before && e.range.start == offset).mergeSort
    fun a b => decide (b.range.stop ≤ a.range.stop)

/-- The replacements of ranges that start at the offset, the range that ends first first. -/
def replacingAt (edits : List Edit) (offset : Nat) : List Edit :=
  (edits.filter fun e => e.side == .replace && e.range.start == offset).mergeSort
    fun a b => decide (a.range.stop ≤ b.range.stop)

/-- The edits whose texts come out at an offset, in order. Sorting is stable, so edits of one side
and anchor keep the order of their submission. -/
def comingOut (edits : List Edit) (offset : Nat) : List Edit :=
  closingAt edits offset ++ openingAt edits offset ++ replacingAt edits offset

def placed (edits : List Edit) : List Edit := edits.mergeSort Edit.comesBefore

theorem placed_perm (edits : List Edit) : (placed edits).Perm edits :=
  List.mergeSort_perm edits Edit.comesBefore

/-- The edits of one rank at an offset are sorted by nesting alone. -/
private theorem filter_placed_rank (edits : List Edit) (offset rank : Nat)
    {selected : Edit → Bool} {le : Edit → Edit → Bool}
    (hselected : ∀ e, (e.rank == rank && e.position == offset) = selected e)
    (hle : ∀ a b : Edit, a.rank = rank → b.rank = rank →
      decide (a.nesting ≤ b.nesting) = le a b) :
    ((placed edits).filter (·.position == offset)).filter (·.rank == rank) =
      (edits.filter selected).mergeSort le := by
  rw [placed, List.filter_filter, funext hselected,
    filter_mergeSort Edit.comesBefore_trans Edit.comesBefore_total]
  apply mergeSort_congr
  intro a ha b hb
  have hpa := (List.mem_filter.mp ha).2
  have hpb := (List.mem_filter.mp hb).2
  rw [← hselected, Bool.and_eq_true, beq_iff_eq, beq_iff_eq] at hpa hpb
  rw [← hle a b hpa.1 hpb.1, Bool.eq_iff_iff, Edit.comesBefore_iff, decide_eq_true_eq]
  omega

/-- At every offset the sorted list holds what comes out there, in this order. -/
theorem filter_placed (edits : List Edit) (offset : Nat) :
    (placed edits).filter (·.position == offset) = comingOut edits offset := by
  have hsorted : ((placed edits).filter (·.position == offset)).Pairwise
      fun a b => a.rank ≤ b.rank := by
    have h := (List.pairwise_mergeSort Edit.comesBefore_trans Edit.comesBefore_total edits).filter
      (·.position == offset)
    refine h.imp_of_mem fun {a b} ha hb hab => ?_
    have hpa := (List.mem_filter.mp ha).2
    have hpb := (List.mem_filter.mp hb).2
    simp only [beq_iff_eq] at hpa hpb
    have := (Edit.comesBefore_iff a b).mp hab
    omega
  have hclosing : ((placed edits).filter (·.position == offset)).filter (·.rank == 0) =
      closingAt edits offset := by
    apply filter_placed_rank
    · intro e
      cases hs : e.side <;> simp [Edit.rank, Edit.position, hs]
    · intro a b ha hb
      cases hsa : a.side <;> cases hsb : b.side <;> simp_all [Edit.rank, Edit.nesting]
  have hopening : ((placed edits).filter (·.position == offset)).filter (·.rank == 1) =
      openingAt edits offset := by
    apply filter_placed_rank
    · intro e
      cases hs : e.side <;> simp [Edit.rank, Edit.position, hs]
    · intro a b ha hb
      cases hsa : a.side <;> cases hsb : b.side <;> simp_all [Edit.rank, Edit.nesting]
  have hreplacing : ((placed edits).filter (·.position == offset)).filter (·.rank == 2) =
      replacingAt edits offset := by
    apply filter_placed_rank
    · intro e
      cases hs : e.side <;> simp [Edit.rank, Edit.position, hs]
    · intro a b ha hb
      cases hsa : a.side <;> cases hsb : b.side <;> simp_all [Edit.rank, Edit.nesting]
  rw [comingOut, ← hclosing, ← hopening, ← hreplacing]
  exact (filter_key_append hsorted fun e _ => e.rank_lt_three).symm

/-- Among sound edits each one starts where those before it have ended. -/
theorem placed_pairwise {source : String} {edits : List Edit} (h : Sound source edits) :
    (placed edits).Pairwise fun a b => a.region.stop ≤ b.position := by
  have hsorted := List.pairwise_mergeSort Edit.comesBefore_trans Edit.comesBefore_total edits
  have hapart := (sound_perm (placed_perm edits).symm h).apart
  exact hsorted.imp₂ (fun a b hab hba => Edit.region_stop_le_position hab hba) hapart

end Revision
end SpecUpgrade
