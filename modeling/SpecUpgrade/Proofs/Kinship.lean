import SpecUpgrade.Proofs.Arena

/-!
Nodes above and below each other. A node is above another exactly when the other comes in its
pre-order, so a subtree can be described from its top or from any node in it.
-/

namespace SpecUpgrade.Tree

variable {t : Tree}

theorem mem_preorder_self (t : Tree) (id : Nat) : id ∈ t.preorder id := by
  rw [preorder_eq]
  exact List.mem_cons_self

theorem mem_preorder_of_child {p c n : Nat} (hc : c ∈ t.childIds p) (hn : n ∈ t.preorder c) :
    n ∈ t.preorder p := by
  rw [preorder_eq]
  exact List.mem_cons_of_mem _ (List.mem_flatMap.mpr ⟨c, hc, hn⟩)

theorem mem_preorder_trans {a b c : Nat} (hb : b ∈ t.preorder a) (hc : c ∈ t.preorder b) :
    c ∈ t.preorder a := by
  induction a using Nat.strongRecOn with
  | ind a ih =>
    rw [preorder_eq, List.mem_cons, List.mem_flatMap] at hb
    rcases hb with rfl | ⟨d, hd, hb⟩
    · exact hc
    · exact mem_preorder_of_child hd (ih d (t.childIds_lt hd) hb)

theorem le_of_mem_preorder {id n : Nat} (h : n ∈ t.preorder id) : n ≤ id := by
  induction id using Nat.strongRecOn with
  | ind id ih =>
    rw [preorder_eq, List.mem_cons, List.mem_flatMap] at h
    rcases h with rfl | ⟨c, hc, hn⟩
    · exact Nat.le_refl _
    · have hlt := t.childIds_lt hc
      have := ih c hlt hn
      omega

theorem lt_of_mem_ancestors {id a : Nat} (h : a ∈ t.ancestors id) : id < a ∧ a < t.size := by
  fun_induction t.ancestors id with
  | case1 id hp => cases h
  | case2 id p hp ih =>
    have hlt := t.lt_parent hp
    rcases List.mem_cons.mp h with rfl | h
    · exact hlt
    · have := ih h
      omega

theorem mem_ancestors_trans {a b id : Nat} (hb : b ∈ t.ancestors id) (ha : a ∈ t.ancestors b) :
    a ∈ t.ancestors id := by
  fun_induction t.ancestors id with
  | case1 id hp => cases hb
  | case2 id p hp ih =>
    rcases List.mem_cons.mp hb with rfl | hb
    · exact List.mem_cons_of_mem _ ha
    · exact List.mem_cons_of_mem _ (ih hb)

namespace Built

/-- What comes in the pre-order of a node is the node or below it. -/
theorem mem_preorder_iff (h : t.Built) {id n : Nat} :
    n ∈ t.preorder id ↔ n = id ∨ id ∈ t.ancestors n := by
  constructor
  · intro hn
    induction id using Nat.strongRecOn with
    | ind id ih =>
      rw [preorder_eq, List.mem_cons, List.mem_flatMap] at hn
      rcases hn with rfl | ⟨c, hc, hn⟩
      · exact Or.inl rfl
      · have hid : id ∈ t.ancestors c := by
          rw [h.ancestors_child hc]
          exact List.mem_cons_self
        rcases ih c (t.childIds_lt hc) hn with rfl | hcn
        · exact Or.inr hid
        · exact Or.inr (mem_ancestors_trans hcn hid)
  · rintro (rfl | hid)
    · exact t.mem_preorder_self n
    · fun_induction t.ancestors n with
      | case1 n hp => cases hid
      | case2 n p hp ih =>
        have hchild : n ∈ t.preorder p :=
          mem_preorder_of_child (h.mem_childIds_iff_parent?.mpr hp) (t.mem_preorder_self n)
        rcases List.mem_cons.mp hid with rfl | hid
        · exact hchild
        · exact mem_preorder_trans (ih hid) hchild

/-- A node below another is below one of its children or is one. -/
theorem exists_child_of_mem_ancestors (h : t.Built) {id n : Nat} (hid : id ∈ t.ancestors n) :
    ∃ c ∈ t.childIds id, n ∈ t.preorder c := by
  have hn := h.mem_preorder_iff.mpr (Or.inr hid)
  rw [preorder_eq, List.mem_cons, List.mem_flatMap] at hn
  have hlt := (lt_of_mem_ancestors hid).1
  exact hn.resolve_left (by omega)

theorem root_lt_size (h : t.Built) : t.root < t.size := by
  obtain ⟨b, root, -, hfinish⟩ := h
  obtain ⟨⟨n, hn, -⟩, -, rfl⟩ := (Builder.finish_eq_ok_iff ..).mp hfinish
  exact (Array.getElem?_eq_some_iff.mp hn).1

theorem lt_size_of_mem_nodesInOrder (h : t.Built) {id : Nat} (hid : id ∈ t.nodesInOrder) :
    id < t.size :=
  Nat.lt_of_le_of_lt (le_of_mem_preorder hid) h.root_lt_size

end Built
end SpecUpgrade.Tree
