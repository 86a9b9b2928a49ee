import Mathlib.Data.List.Nodup
import Mathlib.Data.List.Perm.Subperm
import Mathlib.Tactic.TFAE
import SpecUpgrade.Proofs.Construction

/-!
How often a node is adopted. A push refuses children that have a parent, but it looks at all of its
children before it takes the first, so the list that it is given may name one of them twice. A tree
comes to each of its nodes once exactly when no push has named a child twice.
-/

namespace SpecUpgrade

namespace Tree

variable {t : Tree}

def heldNodes (t : Tree) : List Nat := (List.range t.size).flatMap t.childIds

/-! ## Subtrees in pre-order -/

theorem childIds_sublist_preorder (id : Nat) : (t.childIds id).Sublist (t.preorder id) := by
  have hheads : ∀ ids : List Nat, ids.Sublist (ids.flatMap t.preorder) := by
    intro ids
    induction ids with
    | nil => exact .slnil
    | cons c ids ih =>
      have hself : [c].Sublist (t.preorder c) := List.singleton_sublist.mpr (t.mem_preorder_self c)
      exact hself.append ih
  rw [preorder_eq]
  exact (hheads _).cons id

theorem preorder_sublist {id n : Nat} (h : n ∈ t.preorder id) :
    (t.preorder n).Sublist (t.preorder id) := by
  induction id using Nat.strongRecOn with
  | ind id ih =>
    rw [preorder_eq t id] at h ⊢
    rcases List.mem_cons.mp h with rfl | h
    · rw [← preorder_eq]
    · obtain ⟨c, hc, hn⟩ := List.mem_flatMap.mp h
      have hbelow := ih c (t.childIds_lt hc) hn
      have hwithin : (t.preorder c).Sublist ((t.childIds id).flatMap t.preorder) :=
        List.sublist_flatten_of_mem (List.mem_map_of_mem hc)
      exact (hbelow.trans hwithin).cons id

namespace Built

/-! ## Without repetition -/

/-- A child is above no other child of its parent. -/
theorem not_mem_ancestors_of_sibling (h : t.Built) {p c d : Nat} (hc : c ∈ t.childIds p)
    (hd : d ∈ t.childIds p) : d ∉ t.ancestors c := by
  rw [h.ancestors_child hc, List.mem_cons]
  have hlt := t.childIds_lt hd
  rintro (rfl | habove)
  · omega
  · have := lt_of_mem_ancestors habove
    omega

/-- A node stands below one child of a node at most. -/
theorem child_unique (h : t.Built) {p c d n : Nat} (hc : c ∈ t.childIds p)
    (hd : d ∈ t.childIds p) (hnc : n ∈ t.preorder c) (hnd : n ∈ t.preorder d) : c = d := by
  rw [h.mem_preorder_iff] at hnc hnd
  -- upwards from the node: the parent is one of the children, or both are above it
  fun_induction t.ancestors n with
  | case1 n hp =>
    simp only [List.not_mem_nil, or_false] at hnc hnd
    exact hnc.symm.trans hnd
  | case2 n q hp ih =>
    have habove : t.ancestors n = q :: t.ancestors q := ancestors_of_some hp
    rw [← habove] at hnc hnd
    rcases hnc with rfl | hnc
    · exact hnd.resolve_right (h.not_mem_ancestors_of_sibling hc hd)
    · rcases hnd with rfl | hnd
      · exact absurd hnc (h.not_mem_ancestors_of_sibling hd hc)
      · rw [habove, List.mem_cons] at hnc hnd
        exact ih (hnc.imp_left Eq.symm) (hnd.imp_left Eq.symm)

/-- If no node has a child twice, no subtree comes to a node twice. -/
theorem nodup_preorder (h : t.Built) (hchildren : ∀ id, (t.childIds id).Nodup) (id : Nat) :
    (t.preorder id).Nodup := by
  induction id using Nat.strongRecOn with
  | ind id ih =>
    rw [preorder_eq, List.nodup_cons, List.nodup_flatMap]
    refine ⟨fun hmem => ?_, fun c hc => ih c (t.childIds_lt hc), ?_⟩
    · obtain ⟨c, hc, hid⟩ := List.mem_flatMap.mp hmem
      have hle := le_of_mem_preorder hid
      have hlt := t.childIds_lt hc
      omega
    · exact (hchildren id).imp_of_mem fun hc hd hne n hnc hnd => hne (h.child_unique hc hd hnc hnd)

theorem mem_nodesInOrder_iff (h : t.Built) {id : Nat} : id ∈ t.nodesInOrder ↔ id < t.size :=
  ⟨h.lt_size_of_mem_nodesInOrder, h.mem_nodesInOrder⟩

theorem nodup_childIds_of_nodup (h : t.Built) (hnodup : t.nodesInOrder.Nodup) (id : Nat) :
    (t.childIds id).Nodup := by
  by_cases hid : id < t.size
  · have hbelow :=
      (t.childIds_sublist_preorder id).trans (preorder_sublist (h.mem_nodesInOrder hid))
    exact hnodup.sublist hbelow
  · have hnone : t.node? id = none := Array.getElem?_eq_none (Nat.le_of_not_lt hid)
    simp [childIds, hnone]

theorem nodup_nodesInOrder_iff (h : t.Built) :
    t.nodesInOrder.Nodup ↔ ∀ id, (t.childIds id).Nodup :=
  ⟨h.nodup_childIds_of_nodup, fun hchildren => h.nodup_preorder hchildren t.root⟩

/-- A list of all nodes that has as many entries as there are nodes has none twice. -/
theorem nodesInOrder_perm_iff (h : t.Built) :
    t.nodesInOrder.Perm (List.range t.size) ↔ t.nodesInOrder.Nodup := by
  constructor
  · exact fun hperm => hperm.nodup_iff.mpr List.nodup_range
  · intro hnodup
    rw [List.perm_ext_iff_of_nodup hnodup List.nodup_range]
    intro id
    rw [h.mem_nodesInOrder_iff, List.mem_range]

theorem length_nodesInOrder_iff (h : t.Built) :
    t.nodesInOrder.length = t.size ↔ t.nodesInOrder.Perm (List.range t.size) := by
  constructor
  · intro hlength
    have hsubset : List.range t.size ⊆ t.nodesInOrder := fun id hid =>
      h.mem_nodesInOrder_iff.mpr (List.mem_range.mp hid)
    have hlength' : t.nodesInOrder.length ≤ (List.range t.size).length := by
      simp [hlength]
    exact ((List.nodup_range.subperm hsubset).perm_of_length_le hlength').symm
  · intro hperm
    rw [hperm.length_eq, List.length_range]

/-! ## Slots -/

theorem mem_heldNodes_iff (h : t.Built) {id : Nat} :
    id ∈ t.heldNodes ↔ id < t.size ∧ id ≠ t.root := by
  have hparent : id ∈ t.heldNodes ↔ ∃ p, p < t.size ∧ t.parent? id = some p := by
    simp only [heldNodes, List.mem_flatMap, List.mem_range, h.mem_childIds_iff_parent?]
  rw [hparent]
  constructor
  · rintro ⟨p, hlt, hp⟩
    have hup := t.lt_parent hp
    have hid : id < t.size := Nat.lt_trans hup.1 hlt
    refine ⟨hid, fun hroot => ?_⟩
    rw [(h.parent?_eq_none_iff hid).mpr hroot] at hp
    cases hp
  · rintro ⟨hid, hroot⟩
    have hsome : t.parent? id ≠ none := fun hnone => hroot ((h.parent?_eq_none_iff hid).mp hnone)
    obtain ⟨p, hp⟩ := Option.ne_none_iff_exists'.mp hsome
    exact ⟨p, (t.lt_parent hp).2, hp⟩

theorem nodup_heldNodes_iff (h : t.Built) :
    t.heldNodes.Nodup ↔ ∀ id, (t.childIds id).Nodup := by
  rw [heldNodes, List.nodup_flatMap]
  constructor
  · rintro ⟨hchildren, -⟩ id
    by_cases hid : id < t.size
    · exact hchildren id (List.mem_range.mpr hid)
    · have hnone : t.node? id = none := Array.getElem?_eq_none (Nat.le_of_not_lt hid)
      simp [childIds, hnone]
  · refine fun hchildren => ⟨fun id _ => hchildren id, ?_⟩
    refine List.nodup_range.imp fun {p q} hne id hp hq => hne ?_
    rw [h.mem_childIds_iff_parent?] at hp hq
    exact Option.some.inj (hp.symm.trans hq)

/-- Each node but the root stands in one slot exactly when no node has a child twice. -/
theorem count_heldNodes_iff (h : t.Built) :
    (∀ id < t.size, id ≠ t.root → t.heldNodes.count id = 1) ↔ t.heldNodes.Nodup := by
  simp only [List.nodup_iff_count_eq_one, h.mem_heldNodes_iff, and_imp]

end Built
end Tree

namespace Builder

/-! ## Pushes -/

/-- A builder after pushes of which none fails. -/
def pushAll (b : Builder) (calls : List Call) : Except TreeError Builder :=
  calls.foldlM (fun b c => (c.perform b).map (·.2)) b

theorem pushAll_cons_eq_ok {b b' : Builder} {c : Call} {calls : List Call}
    (h : b.pushAll (c :: calls) = .ok b') :
    ∃ id b₁, c.perform b = .ok (id, b₁) ∧ b₁.pushAll calls = .ok b' := by
  rw [pushAll, List.foldlM_cons] at h
  obtain ⟨b₁, hfirst, hrest⟩ := Tree.bind_eq_ok_iff.mp h
  cases hpush : c.perform b with
  | error e =>
    rw [hpush] at hfirst
    cases hfirst
  | ok added =>
    rw [hpush] at hfirst
    obtain rfl := Except.ok.inj hfirst
    exact ⟨added.1, added.2, rfl, hrest⟩

theorem reached_pushAll {b b' : Builder} (hb : b.Reached) {calls : List Call}
    (h : b.pushAll calls = .ok b') : b'.Reached := by
  induction calls generalizing b with
  | nil =>
    obtain rfl := Except.ok.inj h
    exact hb
  | cons c calls ih =>
    obtain ⟨id, b₁, hpush, hrest⟩ := pushAll_cons_eq_ok h
    exact ih (.push hb hpush) hrest

/-- A push adds the children that it is given and leaves those of the other nodes. -/
theorem childIds_perform {b b' : Builder} {c : Call} {id : Nat} (h : c.perform b = .ok (id, b')) :
    b'.nodes.toList.map Node.childIds = b.nodes.toList.map Node.childIds ++ [c.node.childIds] := by
  obtain ⟨-, -, -, -, -, hnodes⟩ := (push_eq_ok_iff ..).mp h
  have hadopt : (adopt b.nodes.size (c.children.filterMap Child.node?) b.nodes).toList.map
      Node.childIds = b.nodes.toList.map Node.childIds := by
    refine List.ext_getElem? fun i => ?_
    rw [List.getElem?_map, List.getElem?_map, Array.getElem?_toList, Array.getElem?_toList,
      getElem?_adopt, Option.map_map]
    congr 1
    funext n
    simp only [Function.comp_apply]
    split <;> rfl
  rw [hnodes, Array.toList_push, List.map_append, hadopt]
  rfl

theorem childIds_pushAll {b b' : Builder} {calls : List Call} (h : b.pushAll calls = .ok b') :
    b'.nodes.toList.map Node.childIds =
      b.nodes.toList.map Node.childIds ++ calls.map (·.node.childIds) := by
  induction calls generalizing b with
  | nil =>
    obtain rfl := Except.ok.inj h
    simp
  | cons c calls ih =>
    obtain ⟨id, b₁, hpush, hrest⟩ := pushAll_cons_eq_ok h
    rw [ih hrest, childIds_perform hpush, List.append_assoc]
    rfl

/-- The children of a node are those that its push was given. -/
theorem childIds_finished {path source : String} {calls : List Call} {b : Builder} {root : Nat}
    {t : Tree} (hpush : (start path source).pushAll calls = .ok b)
    (hfinish : b.finish root = .ok t) (id : Nat) :
    t.childIds id = ((calls.map (·.node.childIds))[id]?).getD [] := by
  have hnodes : t.nodes.toList.map Node.childIds = calls.map (·.node.childIds) := by
    obtain ⟨-, -, rfl⟩ := (finish_eq_ok_iff ..).mp hfinish
    exact childIds_pushAll hpush
  rw [← hnodes, List.getElem?_map, Array.getElem?_toList]
  rfl

/-- No push has named a child twice exactly when no node of the tree has one twice. -/
theorem nodup_calls_iff {path source : String} {calls : List Call} {b : Builder} {root : Nat}
    {t : Tree} (hpush : (start path source).pushAll calls = .ok b)
    (hfinish : b.finish root = .ok t) :
    (∀ c ∈ calls, c.node.childIds.Nodup) ↔ ∀ id, (t.childIds id).Nodup := by
  have hget := childIds_finished hpush hfinish
  constructor
  · intro hcalls id
    rw [hget]
    cases hid : (calls.map (·.node.childIds))[id]? with
    | none => exact List.nodup_nil
    | some ids =>
      obtain ⟨c, hc, rfl⟩ := List.mem_map.mp (List.mem_of_getElem? hid)
      exact hcalls c hc
  · intro htree c hc
    obtain ⟨id, hid⟩ := List.mem_iff_getElem?.mp (List.mem_map_of_mem (f := (·.node.childIds)) hc)
    have hslots := htree id
    rwa [hget, hid] at hslots

/-- A construction that can be run to its end has a tree. -/
theorem exists_finished (path source : String) (calls : List Call) (root size : Nat)
    (h : (((start path source).pushAll calls).bind (·.finish root)).toOption.map
      (fun t => (t.root, t.size)) = some (root, size)) :
    ∃ b t, (start path source).pushAll calls = .ok b ∧ b.finish root = .ok t ∧ t.root = root ∧
      t.size = size := by
  cases hpush : (start path source).pushAll calls with
  | error e =>
    rw [hpush] at h
    cases h
  | ok b =>
    rw [hpush] at h
    cases hfinish : b.finish root with
    | error e =>
      simp only [Except.bind, hfinish] at h
      cases h
    | ok t =>
      simp only [Except.bind, hfinish] at h
      obtain ⟨hroot, hsize⟩ := Prod.mk.inj (Option.some.inj h)
      exact ⟨b, t, rfl, hfinish, hroot, hsize⟩

/-- A tree that successful pushes have built comes to every node once, and each node but the root
stands in one slot, exactly when no push has named a child twice. -/
theorem adopted_once_iff (path source : String) (calls : List Call) {b : Builder} {root : Nat}
    {t : Tree} (hpush : (start path source).pushAll calls = .ok b)
    (hfinish : b.finish root = .ok t) :
    List.TFAE [∀ c ∈ calls, c.node.childIds.Nodup,
      ∀ id < t.size, id ≠ t.root → t.heldNodes.count id = 1,
      t.nodesInOrder.Perm (List.range t.size),
      t.nodesInOrder.length = t.size] := by
  have hbuilt : t.Built := ⟨b, root, reached_pushAll (.start path source) hpush, hfinish⟩
  have hcalls := nodup_calls_iff hpush hfinish
  tfae_have 1 ↔ 2 :=
    hcalls.trans (hbuilt.nodup_heldNodes_iff.symm.trans hbuilt.count_heldNodes_iff.symm)
  tfae_have 1 ↔ 3 :=
    hcalls.trans (hbuilt.nodup_nodesInOrder_iff.symm.trans hbuilt.nodesInOrder_perm_iff.symm)
  tfae_have 3 ↔ 4 := hbuilt.length_nodesInOrder_iff.symm
  tfae_finish

/-- A tree of three pushes, of which the last takes the nodes of the others. -/
theorem adopted_once_iff_pair :
    let leaf : Call := ⟨"int", ⟨0, 1, by decide⟩, none, []⟩
    let pair : Call := ⟨"begin", ⟨0, 2, by decide⟩, none, [.node 1, .literal .nil, .node 0]⟩
    (∀ c ∈ [leaf, leaf, pair], c.node.childIds.Nodup) ∧
      ∃ b t, (start "a.rb" "ab").pushAll [leaf, leaf, pair] = .ok b ∧ b.finish 2 = .ok t ∧
        t.nodesInOrder.Perm (List.range t.size) ∧ t.heldNodes.count 0 = 1 := by
  intro leaf pair
  have hcalls : ∀ c ∈ [leaf, leaf, pair], c.node.childIds.Nodup := by decide
  obtain ⟨b, t, hpush, hfinish, hroot, hsize⟩ :=
    exists_finished "a.rb" "ab" [leaf, leaf, pair] 2 3 (by decide +kernel)
  have hiff := adopted_once_iff "a.rb" "ab" [leaf, leaf, pair] hpush hfinish
  have hcount : ∀ id < t.size, id ≠ t.root → t.heldNodes.count id = 1 := (hiff.out 0 1).mp hcalls
  exact ⟨hcalls, b, t, hpush, hfinish, (hiff.out 0 2).mp hcalls, hcount 0 (by omega) (by omega)⟩

/-- A push takes a node twice that no push has taken before. -/
theorem adopted_twice :
    let leaf : Call := ⟨"int", ⟨0, 1, by decide⟩, none, []⟩
    let twice : Call := ⟨"begin", ⟨0, 2, by decide⟩, none, [.node 0, .node 0]⟩
    ∃ b t, (start "a.rb" "ab").pushAll [leaf, twice] = .ok b ∧ b.finish 1 = .ok t ∧
      t.size = 2 ∧ t.heldNodes.count 0 = 2 ∧ t.nodesInOrder = [1, 0, 0] := by
  intro leaf twice
  obtain ⟨b, t, hpush, hfinish, hroot, hsize⟩ :=
    exists_finished "a.rb" "ab" [leaf, twice] 1 2 (by decide +kernel)
  have hleaf : t.childIds 0 = [] := childIds_finished hpush hfinish 0
  have htwice : t.childIds 1 = [0, 0] := childIds_finished hpush hfinish 1
  refine ⟨b, t, hpush, hfinish, hsize, ?_, ?_⟩
  · simp [Tree.heldNodes, hsize, List.range_succ, hleaf, htwice]
  · have hbelow : t.preorder 0 = [0] := by rw [Tree.preorder_eq, hleaf, List.flatMap_nil]
    rw [Tree.nodesInOrder, hroot, Tree.preorder_eq, htwice]
    simp [hbelow]

end Builder
end SpecUpgrade
