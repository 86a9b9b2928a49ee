import Mathlib
import SpecUpgrade.Proofs.Acceptance
import SpecUpgrade.Proofs.Enabling
import SpecUpgrade.Proofs.Kinship
import SpecUpgrade.Proofs.Outcomes

/-!
Which matches stand in each other's way. In a well-formed tree a match is dropped for a conflict
exactly when a match above it was converted that replaces the text around it: a comparison, which is
written anew as a whole, or an expectation of a block, in which the call that makes the block is
written anew. Matches of which neither is above the other have no effect on each other.
-/

namespace SpecUpgrade

/-! ## Places in pre-order -/

namespace Tree

variable {t : Tree} {enabled : List Rule}

/-- Of two nodes in pre-order whose places are not empty, the later one is below the earlier one or
beside it. -/
theorem WellFormed.preorder_pairwise (hwf : t.WellFormed enabled) (id : Nat) :
    (t.preorder id).Pairwise fun x y =>
      (t.range x).start < (t.range x).stop → (t.range y).start < (t.range y).stop →
        (y ∈ t.preorder x ∧ y < x) ∨ (t.range x).Beside (t.range y) := by
  induction id using Nat.strongRecOn with
  | ind id ih =>
    rw [preorder_eq, List.pairwise_cons, List.pairwise_flatMap]
    refine ⟨fun y hy _ _ => ?_, fun c hc => ih c (t.childIds_lt hc), ?_⟩
    · obtain ⟨c, hc, hy⟩ := List.mem_flatMap.mp hy
      have hlt := t.childIds_lt hc
      have hle := le_of_mem_preorder hy
      exact Or.inl ⟨mem_preorder_of_child hc hy, by omega⟩
    · refine (hwf.siblings id).imp fun {c d} hsep x hx y hy hxne hyne => Or.inr ?_
      have hxin := hwf.preorder_inside hx hxne
      have hyin := hwf.preorder_inside hy hyne
      have := hsep.le_or_le (by omega) (by omega)
      unfold Span.Beside
      omega

end Tree

namespace Match

variable {t : Tree} {enabled : List Rule} {facts : Facts}

/-- Matches come in an order in which each is below the earlier ones or beside them. -/
theorem all_pairwise (ht : t.Built) (hwf : t.WellFormed enabled) :
    (all t enabled).Pairwise fun m k =>
      m.node ∈ t.ancestors k.node ∨ (t.range m.node).Beside (t.range k.node) := by
  rw [all, List.pairwise_filterMap]
  refine (hwf.preorder_pairwise t.root).imp fun {x y} hxy m hm k hk => ?_
  have hmnode := node_of_at? hm
  have hknode := node_of_at? hk
  rw [hmnode, hknode]
  have hxne := Span.start_lt_stop (hwf.detected x m hm)
  have hyne := Span.start_lt_stop (hwf.detected y k hk)
  rcases hxy hxne hyne with ⟨hbelow, hlt⟩ | hbeside
  · rcases ht.mem_preorder_iff.mp hbelow with rfl | habove
    · omega
    · exact Or.inl habove
  · exact Or.inr hbeside

/-- Matches with places beside each other have edits that may stand side by side. -/
theorem edits_apart_of_beside (ht : t.Built) (hwf : t.WellFormed enabled) {m k : Match}
    (hm : at? t enabled m.node = some m) (hk : at? t enabled k.node = some k)
    (h : (t.range m.node).Beside (t.range k.node)) :
    ∀ e ∈ m.edits t, ∀ f ∈ k.edits t, e.Apart f := by
  intro e he f hf
  have hclear := (edits_liesIn ht hwf hm e he).clearOf h
  exact hclear.apart (edits_liesIn ht hwf hk f hf)

/-! ## Replaced texts -/

/-- The node whose whole text a match writes anew, if there is one. -/
def replaced? (t : Tree) : Match → Option Nat
  | should _ subject _ _ => constructor? t subject
  | stub _ _ _ _ => none
  | beClose node _ _ => some node

/-- The match writes a text anew in which the node stands. -/
def Shadows (t : Tree) (m : Match) (node : Nat) : Prop := ∃ a ∈ m.replaced? t, a ∈ t.ancestors node

/-- The call that makes a block a value is itself no match: no rule claims a method of its name. -/
theorem at?_of_constructor? {subject call : Nat} (h : constructor? t subject = some call) :
    at? t enabled call = none := by
  rw [Option.eq_none_iff_forall_ne_some]
  intro m hm
  have hsend := kind_of_at? hm
  have hclaimed := (methodName?_of_ofRule? (at?_eq_some_iff.mp hm).2).2
  obtain ⟨-, -, hlambda | ⟨-, -, hname | hname⟩⟩ := constructor?_eq_some h
  · rw [hsend] at hlambda
    exact absurd hlambda (by decide)
  · rw [hname] at hclaimed
    cases hclaimed
  · rw [hname] at hclaimed
    cases hclaimed

/-- What a match replaces is one of its edits. -/
theorem exists_edit_of_replaced? {m : Match} {a : Nat} (h : m.replaced? t = some a) :
    ∃ text, Edit.replace (t.range a) text ∈ m.edits t := by
  cases m with
  | beClose node expected delta =>
    cases h
    exact ⟨_, List.mem_singleton_self _⟩
  | stub node object tail messages => cases h
  | should node subject tail negative =>
    refine ⟨"expect", ?_⟩
    have hc : constructor? t subject = some a := h
    simp [edits, shouldEdits, hc]

/-- A match in a text that is written anew conflicts with the match that writes it. -/
theorem conflict_of_shadows (ht : t.Built) (hwf : t.WellFormed enabled) {m k : Match}
    (hk : at? t enabled k.node = some k) (h : m.Shadows t k.node) :
    ∃ e ∈ m.edits t, ∃ f ∈ k.edits t, ¬e.Apart f := by
  obtain ⟨a, ha, habove⟩ := h
  obtain ⟨text, he⟩ := exists_edit_of_replaced? ha
  obtain ⟨f, hf, hreplace⟩ := exists_replace ht hwf hk
  refine ⟨_, he, f, hf, fun hapart => ?_⟩
  have hne := Span.start_lt_stop (hwf.detected k.node k hk)
  have hin := hwf.preorder_inside (ht.mem_preorder_iff.mpr (Or.inr habove)) hne
  have hlies := edits_liesIn ht hwf hk f hf
  have hlead := hlies.start_lt_stop
  have hstart := hlies.start_le
  have hstop := hlies.stop_le
  rw [Edit.apart_iff, Edit.region_of_replace rfl, Edit.region_of_replace hreplace] at hapart
  simp only [Edit.replace] at hapart
  omega

/-- The call that makes a block a value is clear of the matches in the block that do not stand in
it. -/
theorem replace_constructor_clearOf (ht : t.Built) (hwf : t.WellFormed enabled)
    {subject call : Nat} (hc : constructor? t subject = some call) {k : Match}
    (hk : at? t enabled k.node = some k) (hin : k.node ∈ t.preorder subject)
    (h : call ∉ t.ancestors k.node) (text : String) :
    (Edit.replace (t.range call) text).ClearOf (t.range k.node) := by
  have hne := Span.start_lt_stop (hwf.detected k.node k hk)
  obtain ⟨⟨rest, hids⟩, hcall, -, -⟩ := constructor_place hwf hc
  rw [Tree.preorder_eq, hids, List.mem_cons, List.flatMap_cons, List.mem_append,
    List.mem_flatMap] at hin
  rcases hin with hself | hcalled | ⟨d, hd, hin⟩
  · -- the subject is a block and no call
    have hblock := (constructor?_eq_some hc).1
    have hsend := kind_of_at? hk
    rw [hself, hblock] at hsend
    exact absurd hsend (by decide)
  · rcases ht.mem_preorder_iff.mp hcalled with heq | habove
    · rw [heq, at?_of_constructor? hc] at hk
      cases hk
    · exact absurd habove h
  · have hsiblings := hwf.siblings subject
    rw [hids, List.pairwise_cons] at hsiblings
    have hplace := hwf.preorder_inside hin hne
    have hbeside := (hsiblings.1 d hd).le_or_le hcall (by omega)
    change (t.range call).stop ≤ _ ∨ _ ≤ (t.range call).start
    omega

/-- What a match with a receiver changes is clear of everything below it, if the change in the
receiver is. -/
theorem Parts.clearOf (ht : t.Built) (hwf : t.WellFormed enabled) {id subject y : Nat} {tail : Span}
    (hparts : Parts t id subject tail) {first : Edit} (hfirst : first.LiesIn (t.range subject))
    (hbelow : id ∈ t.ancestors y) (hne : (t.range y).start < (t.range y).stop)
    (hinner : y ∈ t.preorder subject → first.ClearOf (t.range y)) (text : String) :
    ∀ e ∈ [first, .replace tail text], e.ClearOf (t.range y) := by
  obtain ⟨c, hc, hy⟩ := ht.exists_child_of_mem_ancestors hbelow
  have hin := hwf.preorder_inside hy hne
  have hstart := hparts.start_eq
  have htail : (Edit.replace tail text).LiesIn tail :=
    ⟨⟨by simp [Edit.replace], hparts.start_lt_stop⟩, Nat.le_refl _, Nat.le_refl _⟩
  simp only [List.mem_cons, List.not_mem_nil, or_false, forall_eq_or_imp, forall_eq]
  rw [hparts.childIds, List.mem_cons] at hc
  rcases hc with rfl | hc
  · exact ⟨hinner hy, htail.clearOf (Or.inr (by omega))⟩
  · have hbehind := hparts.arguments_behind hwf hc (by omega)
    have hlt := hparts.start_lt_stop
    exact ⟨hfirst.clearOf (Or.inl (by omega)), htail.clearOf (Or.inl (by omega))⟩

/-- What a match changes is clear of the matches below it, unless they stand in a text that it
writes anew. -/
theorem edits_clearOf (ht : t.Built) (hwf : t.WellFormed enabled) {m k : Match}
    (hm : at? t enabled m.node = some m) (hk : at? t enabled k.node = some k)
    (hbelow : m.node ∈ t.ancestors k.node) (h : ¬m.Shadows t k.node) :
    ∀ e ∈ m.edits t, e.ClearOf (t.range k.node) := by
  have hne := Span.start_lt_stop (hwf.detected k.node k hk)
  have hstands := at?_stands hm
  have hinsert : ∀ {subject : Nat} {tail : Span} {front back : String},
      Parts t m.node subject tail →
      ∀ e ∈ [Edit.insertBefore (t.range subject) front, Edit.replace tail back],
        e.ClearOf (t.range k.node) := by
    intro subject tail front back hparts
    refine hparts.clearOf ht hwf (hparts.insertBefore_liesIn hwf front) hbelow hne ?_ back
    intro hin
    exact Or.inl (hwf.preorder_inside hin hne).1
  cases m with
  | beClose node expected delta => exact absurd ⟨node, rfl, hbelow⟩ h
  | stub node object tail messages => exact hinsert hstands.2
  | should node subject tail negative =>
    have hparts : Parts t node subject tail := hstands.2
    cases hc : constructor? t subject with
    | none =>
      simp only [edits, shouldEdits, hc]
      exact hinsert hparts
    | some call =>
      simp only [edits, shouldEdits, hc]
      have hreplace := replace_constructor_liesIn hwf hc "expect"
      refine hparts.clearOf ht hwf hreplace hbelow hne (fun hin => ?_) _
      exact replace_constructor_clearOf ht hwf hc hk hin (fun habove => h ⟨call, hc, habove⟩) _

/-- The text that a match writes anew is its own or in its receiver. -/
theorem Shadows.above (ht : t.Built) {m : Match} (hm : at? t enabled m.node = some m) {node : Nat}
    (h : m.Shadows t node) : m.node ∈ t.ancestors node := by
  obtain ⟨a, ha, habove⟩ := h
  have hstands := at?_stands hm
  cases m with
  | beClose node expected delta =>
    cases ha
    exact habove
  | stub node object tail messages => cases ha
  | should node subject tail negative =>
    have hparts : Parts t node subject tail := hstands.2
    obtain ⟨rest, hids⟩ := Tree.childIds_of_first (constructor?_eq_some ha).2.1
    have hcall : subject ∈ t.ancestors a := by
      rw [ht.ancestors_child (by rw [hids]; exact List.mem_cons_self)]
      exact List.mem_cons_self
    have hsubject : node ∈ t.ancestors subject := by
      rw [ht.ancestors_child (by rw [hparts.childIds]; exact List.mem_cons_self)]
      exact List.mem_cons_self
    exact Tree.mem_ancestors_trans (Tree.mem_ancestors_trans habove hcall) hsubject

/-- Of two matches in pre-order the later one can stand beside the earlier one exactly when the
earlier one does not write the text around it anew. -/
theorem edits_apart_iff (ht : t.Built) (hwf : t.WellFormed enabled) {m k : Match}
    (hm : at? t enabled m.node = some m) (hk : at? t enabled k.node = some k)
    (hmk : m.node ∈ t.ancestors k.node ∨ (t.range m.node).Beside (t.range k.node)) :
    (∀ e ∈ m.edits t, ∀ f ∈ k.edits t, e.Apart f) ↔ ¬m.Shadows t k.node := by
  constructor
  · intro hapart hshadows
    obtain ⟨e, he, f, hf, hmeet⟩ := conflict_of_shadows ht hwf hk hshadows
    exact hmeet (hapart e he f hf)
  · intro hclear e he f hf
    rcases hmk with habove | hbeside
    · exact (edits_clearOf ht hwf hm hk habove hclear e he).apart (edits_liesIn ht hwf hk f hf)
    · exact edits_apart_of_beside ht hwf hm hk hbeside e he f hf

/-- A match that comes later in pre-order is not above the earlier one. -/
theorem not_above (ht : t.Built) (hwf : t.WellFormed enabled) {m k : Match}
    (hm : at? t enabled m.node = some m) (hk : at? t enabled k.node = some k)
    (hmk : m.node ∈ t.ancestors k.node ∨ (t.range m.node).Beside (t.range k.node)) :
    k.node ∉ t.ancestors m.node := by
  intro habove
  rcases hmk with hbelow | hbeside
  · have := (Tree.lt_of_mem_ancestors habove).1
    have := (Tree.lt_of_mem_ancestors hbelow).1
    omega
  · have hmne := Span.start_lt_stop (hwf.detected m.node m hm)
    have hkne := Span.start_lt_stop (hwf.detected k.node k hk)
    have hin := hwf.preorder_inside (ht.mem_preorder_iff.mpr (Or.inr habove)) hmne
    unfold Span.Beside at hbeside
    omega

/-! ## What is converted -/

theorem Outcome.mem_edits {o : Outcome} {e : Edit} :
    e ∈ o.edits t ↔ o.converted = true ∧ e ∈ o.found.edits t := by
  unfold Outcome.edits
  split <;> simp_all

/-- What was tried before a match decides what becomes of it: only matches above it and beside it,
and every match above it. -/
theorem exists_earlier (ht : t.Built) (hwf : t.WellFormed enabled) {o : Outcome}
    (ho : o ∈ t.outcomes enabled facts) :
    ∃ earlier : List Outcome,
      o.obstacle? = o.found.obstacle? t facts (earlier.flatMap (Outcome.edits t)) ∧
      Revision.Sound t.source (earlier.flatMap (Outcome.edits t)) ∧
      (∀ k ∈ earlier, k ∈ t.outcomes enabled facts ∧ (k.found.node ∈ t.ancestors o.found.node ∨
        (t.range k.found.node).Beside (t.range o.found.node))) ∧
      ∀ k ∈ t.outcomes enabled facts, k.found.node ∈ t.ancestors o.found.node → k ∈ earlier := by
  have hat : ∀ k ∈ t.outcomes enabled facts, at? t enabled k.found.node = some k.found :=
    fun k hk => Tree.at?_of_mem_all (Tree.found_mem_all hk)
  obtain ⟨before, behind, hall, hobstacle⟩ := mem_outcomes ho
  have hpairs := all_pairwise ht hwf
  rw [hall, List.pairwise_append, List.pairwise_cons] at hpairs
  obtain ⟨-, ⟨hbehind, -⟩, hbefore⟩ := hpairs
  have hsplit := outcomes_append t facts [] before (o.found :: behind)
  rw [← hall] at hsplit
  refine ⟨outcomes t facts [] before, hobstacle, outcomes_sound (Revision.sound_nil _) before,
    fun k hk => ⟨?_, ?_⟩, fun k hk habove => ?_⟩
  · rw [Tree.outcomes, hsplit]
    exact List.mem_append_left _ hk
  · refine hbefore k.found ?_ o.found List.mem_cons_self
    rw [← map_found_outcomes t facts [] before]
    exact List.mem_map_of_mem hk
  · have hk' := hk
    rw [Tree.outcomes, hsplit, List.mem_append] at hk'
    refine hk'.resolve_right fun hlate => ?_
    have hmem := List.mem_map_of_mem (f := (·.found)) hlate
    rw [map_found_outcomes, List.mem_cons] at hmem
    rcases hmem with heq | hlater
    · rw [heq] at habove
      exact Nat.lt_irrefl _ (Tree.lt_of_mem_ancestors habove).1
    · exact not_above ht hwf (hat o ho) (hat k hk) (hbehind k.found hlater) habove

/-- A match is converted exactly when what it needs can be called and no converted match writes the
text around it anew. -/
theorem converted_iff (ht : t.Built) (hwf : t.WellFormed enabled) {o : Outcome}
    (ho : o ∈ t.outcomes enabled facts) :
    o.converted = true ↔ o.found.needs?.all (·.holds t facts o.found.node) = true ∧
      ∀ k ∈ t.outcomes enabled facts, k.converted = true → ¬k.found.Shadows t o.found.node := by
  have hat : ∀ k ∈ t.outcomes enabled facts, at? t enabled k.found.node = some k.found :=
    fun k hk => Tree.at?_of_mem_all (Tree.found_mem_all hk)
  obtain ⟨earlier, hobstacle, hsound, hearlier, habove⟩ := exists_earlier ht hwf ho
  have hpair : ∀ k ∈ earlier, (∀ e ∈ k.found.edits t, ∀ f ∈ o.found.edits t, e.Apart f) ↔
      ¬k.found.Shadows t o.found.node := fun k hk =>
    edits_apart_iff ht hwf (hat k (hearlier k hk).1) (hat o ho) (hearlier k hk).2
  rw [Outcome.converted, Option.isNone_iff_eq_none, hobstacle, obstacle?_eq_none_iff hsound,
    Revision.sound_append_iff]
  refine and_congr_right fun _ => ⟨fun ⟨_, _, hapart⟩ k hk hconverted hshadows => ?_, fun h => ?_⟩
  · have hkmem := habove k hk (hshadows.above ht (hat k hk))
    refine (hpair k hkmem).mp (fun e he => hapart e (List.mem_flatMap.mpr ⟨k, hkmem, ?_⟩)) hshadows
    exact Outcome.mem_edits.mpr ⟨hconverted, he⟩
  · refine ⟨hsound, edits_sound ht hwf (at?_stands (hat o ho)), fun e he f hf => ?_⟩
    obtain ⟨k, hk, he⟩ := List.mem_flatMap.mp he
    obtain ⟨hconverted, he⟩ := Outcome.mem_edits.mp he
    exact (hpair k hk).mpr (h k (hearlier k hk).1 hconverted) e he f hf

/-! ## Independence -/

end Match

/-- Staging looks only at the accepted edits that conflict with the group. -/
theorem Revision.stage_congr {source : String} {xs ys : List Edit} {group : List Edit}
    (h : ∀ f ∈ group, xs.filter (·.conflicts f) = ys.filter (·.conflicts f)) (staged : List Edit) :
    stage ⟨source, xs⟩ staged group = stage ⟨source, ys⟩ staged group := by
  induction group generalizing staged with
  | nil => rfl
  | cons f group ih =>
    have hcheck : check source f xs = check source f ys := by
      unfold check checkConflict
      rw [← List.head?_filter, ← List.head?_filter, h f (by simp)]
    simp only [stage, hcheck, ih fun g hg => h g (by simp [hg])]

namespace Match

variable {t : Tree} {enabled : List Rule} {facts : Facts}

/-- What stands in the way of a match depends on the accepted edits that conflict with its own. -/
theorem obstacle?_congr {m : Match} {xs ys : List Edit}
    (h : ∀ f ∈ m.edits t, xs.filter (·.conflicts f) = ys.filter (·.conflicts f)) :
    m.obstacle? t facts xs = m.obstacle? t facts ys := by
  have hstage : Revision.stage ⟨t.source, xs⟩ [] (m.edits t) =
      Revision.stage ⟨t.source, ys⟩ [] (m.edits t) := Revision.stage_congr h []
  unfold obstacle? apply Revision.submitAll
  rw [hstage]
  cases m.needs?.filter (!·.holds t facts m.node) with
  | some a => rfl
  | none => cases Revision.stage ⟨t.source, ys⟩ [] (m.edits t) <;> rfl

/-- Matches whose edits stand apart from those of the others can be tried on their own. -/
theorem outcomes_filter {ms : List Match} (kin : Match → Bool) {xs ys : List Edit}
    (hms : ms.Pairwise fun m k => kin m = false → kin k = true →
      ∀ e ∈ m.edits t, ∀ f ∈ k.edits t, e.Apart f)
    (h : ∀ k ∈ ms, kin k = true → ∀ f ∈ k.edits t,
      xs.filter (·.conflicts f) = ys.filter (·.conflicts f)) :
    (outcomes t facts xs ms).filter (kin ·.found) = outcomes t facts ys (ms.filter kin) := by
  induction ms generalizing xs ys with
  | nil => rfl
  | cons m ms ih =>
    obtain ⟨hm, hms⟩ := List.pairwise_cons.mp hms
    rw [outcomes]
    cases hkin : kin m with
    | true =>
      have hobstacle : m.obstacle? t facts xs = m.obstacle? t facts ys :=
        obstacle?_congr (h m (by simp) hkin)
      simp only [List.filter_cons, hkin, if_true, outcomes, hobstacle]
      congr 1
      apply ih hms
      intro k hk hkkin f hf
      rw [List.filter_append, List.filter_append, h k (by simp [hk]) hkkin f hf]
    | false =>
      simp only [List.filter_cons, hkin, Bool.false_eq_true, if_false]
      apply ih hms
      intro k hk hkkin f hf
      have hnone : (Outcome.edits t ⟨m, m.obstacle? t facts xs⟩).filter (·.conflicts f) = [] := by
        rw [List.filter_eq_nil_iff]
        intro e he
        have hapart := hm k hk hkin hkkin e (Outcome.mem_edits.mp he).2 f hf
        simpa [Edit.Apart] using hapart
      rw [List.filter_append, hnone, List.append_nil, h k (by simp [hk]) hkkin f hf]

/-- What becomes of a match is decided by the matches above it: it comes out the same when only some
matches are tried, as long as those above it are. -/
theorem mem_outcomes_filter (ht : t.Built) (hwf : t.WellFormed enabled) {o : Outcome}
    (ho : o ∈ t.outcomes enabled facts) {keep : Nat → Bool}
    (hkeep : ∀ n ∈ o.found.node :: t.ancestors o.found.node, keep n = true) :
    o ∈ outcomes t facts [] ((all t enabled).filter (keep ·.node)) := by
  let kin : Match → Bool := fun m => decide (m.node ∈ o.found.node :: t.ancestors o.found.node)
  have hself : kin o.found = true := decide_eq_true List.mem_cons_self
  -- who is above kin is kin, so what is not stands beside
  have hpairs : (all t enabled).Pairwise fun m k => kin m = false → kin k = true →
      ∀ e ∈ m.edits t, ∀ f ∈ k.edits t, e.Apart f := by
    refine (all_pairwise ht hwf).imp_of_mem fun {m k} hm hk hmk hstranger hkin => ?_
    have hkabove : k.node ∈ o.found.node :: t.ancestors o.found.node := of_decide_eq_true hkin
    have hmabove : m.node ∉ o.found.node :: t.ancestors o.found.node :=
      of_decide_eq_false hstranger
    refine edits_apart_of_beside ht hwf (Tree.at?_of_mem_all hm) (Tree.at?_of_mem_all hk)
      (hmk.resolve_left fun habove => hmabove (List.mem_cons_of_mem _ ?_))
    rcases List.mem_cons.mp hkabove with heq | hkabove
    · rwa [heq] at habove
    · exact Tree.mem_ancestors_trans hkabove habove
  have hall : (outcomes t facts [] (all t enabled)).filter (kin ·.found) =
      outcomes t facts [] ((all t enabled).filter kin) :=
    outcomes_filter kin hpairs fun _ _ _ _ _ => rfl
  have hsome : (outcomes t facts [] ((all t enabled).filter (keep ·.node))).filter (kin ·.found) =
      outcomes t facts [] (((all t enabled).filter (keep ·.node)).filter kin) :=
    outcomes_filter kin (hpairs.filter (keep ·.node)) fun _ _ _ _ _ => rfl
  have hkept : ((all t enabled).filter (keep ·.node)).filter kin = (all t enabled).filter kin := by
    rw [List.filter_filter]
    refine List.filter_congr fun m _ => ?_
    cases hkin : kin m with
    | false => rfl
    | true => simp [hkeep m.node (of_decide_eq_true hkin)]
  have hmem : o ∈ (outcomes t facts [] (all t enabled)).filter (kin ·.found) :=
    List.mem_filter.mpr ⟨ho, hself⟩
  rw [hall, ← hkept, ← hsome] at hmem
  exact (List.mem_filter.mp hmem).1

theorem shadows_iff {m : Match} {node : Nat} :
    m.Shadows t node ↔ m.rule = .beClose ∧ m.node ∈ t.ancestors node ∨
      ∃ id subject tail negative call, m = .should id subject tail negative ∧
        constructor? t subject = some call ∧ call ∈ t.ancestors node := by
  unfold Shadows
  cases m <;> simp [replaced?, rule, Match.node]

/-- A match that has what it needs is left alone for a conflict or not at all. -/
theorem conflict_iff (ht : t.Built) {o : Outcome} (ho : o ∈ t.outcomes enabled facts)
    (hneeds : o.found.needs?.all (·.holds t facts o.found.node) = true) :
    (∃ notice ∈ o.notice? t, notice.kind = "edit_conflict") ↔ o.converted = false := by
  obtain ⟨before, behind, -, hrun⟩ := mem_outcomes ho
  have hat := Tree.at?_of_mem_all (Tree.found_mem_all ho)
  cases hobstacle : o.obstacle? with
  | none => simp [Outcome.notice?, Outcome.converted, hobstacle]
  | some obstacle =>
    rw [hobstacle] at hrun
    rcases obstacle?_eq_some ht hat hrun.symm with ⟨hnot, -⟩ | ⟨_, _, rfl⟩
    · rw [hneeds] at hnot
      cases hnot
    · simp [Outcome.notice?, Outcome.converted, hobstacle, Obstacle.kind]

end Match

namespace Tree

variable {t : Tree} {enabled : List Rule}

/-- In a well-formed tree a match that could be converted is dropped for a conflict exactly when it
has a converted comparison above it, or stands below the call that a converted expectation of a block
replaces. And what becomes of a match does not change when any matches but those above it are left
out. -/
theorem conflict_iff_replaced (ht : t.Built) (hwf : t.WellFormed enabled) (facts : Facts) :
    let os := t.outcomes enabled facts
    let out := t.convert enabled facts
    os.map (·.found) = Match.all t enabled ∧
      out.conversions = os.filterMap (·.conversion? t) ∧
      out.notices = os.filterMap (·.notice? t) ∧
      (∀ o ∈ os, o.found.needs?.all (·.holds t facts o.found.node) = true →
        ((∃ notice ∈ o.notice? t, notice.kind = "edit_conflict") ↔
          (∃ k ∈ os, (k.conversion? t).isSome = true ∧ k.found.rule = .beClose ∧
            k.found.node ∈ t.ancestors o.found.node) ∨
          ∃ k ∈ os, (k.conversion? t).isSome = true ∧
            ∃ node subject tail negative call, k.found = .should node subject tail negative ∧
              Match.constructor? t subject = some call ∧ call ∈ t.ancestors o.found.node)) ∧
      ∀ o ∈ os, ∀ keep : Nat → Bool,
        (∀ n ∈ o.found.node :: t.ancestors o.found.node, keep n = true) →
        o ∈ Match.outcomes t facts [] ((Match.all t enabled).filter (keep ·.node)) := by
  refine ⟨Match.map_found_outcomes .., ?_, ?_, fun o ho hneeds => ?_,
    fun o ho keep hkeep => Match.mem_outcomes_filter ht hwf ho hkeep⟩
  · rw [convert_eq, progress_eq]
  · rw [convert_eq, progress_eq]
  · rw [Match.conflict_iff ht ho hneeds, ← Bool.not_eq_true, Match.converted_iff ht hwf ho]
    simp only [hneeds, true_and, not_forall, not_not, Match.Outcome.isSome_conversion?_eq,
      Match.shadows_iff, exists_prop, ← exists_or, ← and_or_left]

set_option maxRecDepth 2048 in
/-- A comparison in a comparison is left alone. -/
theorem conflict_iff_replaced_nested :
    ∃ t, ofDump "a.rb" "be_close(be_close(1,2),3)"
        "(send @0..25 nil :be_close (send @9..22 nil :be_close (i) (i)) (i))" = .ok t ∧
      t.WellFormed Rule.all ∧
      ∃ o ∈ t.outcomes Rule.all .empty, o.found = .beClose 2 0 1 ∧
        ∃ notice ∈ o.notice? t, notice.kind = "edit_conflict" := by
  have hcheck : (ofDump "a.rb" "be_close(be_close(1,2),3)"
      "(send @0..25 nil :be_close (send @9..22 nil :be_close (i) (i)) (i))").map
        (fun t => (t.placesNest, t.ancestors 2,
          (t.outcomes Rule.all .empty).map fun o => (o.found, o.converted))) =
      .ok (true, [4], [(.beClose 4 2 3, true), (.beClose 2 0 1, false)]) := by cbv
  cases hread : ofDump "a.rb" "be_close(be_close(1,2),3)"
      "(send @0..25 nil :be_close (send @9..22 nil :be_close (i) (i)) (i))" with
  | error e =>
    rw [hread] at hcheck
    cases hcheck
  | ok t =>
    rw [hread] at hcheck
    simp only [Except.map, Except.ok.injEq, Prod.mk.injEq] at hcheck
    obtain ⟨hnest, habove, hos⟩ := hcheck
    have hwf : t.WellFormed Rule.all := wellFormed_of_placesNest hnest Rule.all
    obtain ⟨k, others, hall, hk, hothers⟩ := List.map_eq_cons_iff.mp hos
    obtain ⟨o, _, rfl, ho, -⟩ := List.map_eq_cons_iff.mp hothers
    obtain ⟨hkfound, hkconverted⟩ := Prod.mk.inj hk
    obtain ⟨hofound, -⟩ := Prod.mk.inj ho
    have hko : k ∈ t.outcomes Rule.all .empty ∧ o ∈ t.outcomes Rule.all .empty := by simp [hall]
    obtain ⟨-, -, -, hiff, -⟩ :=
      conflict_iff_replaced (built_of_ofDump hread) hwf .empty
    refine ⟨t, rfl, hwf, o, hko.2, hofound, (hiff o hko.2 (by rw [hofound]; rfl)).mpr (.inl ?_)⟩
    refine ⟨k, hko.1, ?_, by rw [hkfound]; rfl, ?_⟩
    · rw [Match.Outcome.isSome_conversion?_eq, hkconverted]
    · rw [hkfound, hofound]
      exact habove ▸ List.mem_cons_self

end Tree
end SpecUpgrade
