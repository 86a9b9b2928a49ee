import SpecUpgrade.Proofs.Layout
import SpecUpgrade.Proofs.Positions

/-!
What becomes of each match of a conversion. The conversion keeps two lists, of what was converted and
of what was left alone, and a revision; all three can be read off one list with an outcome for every
match, in the order in which the matches were found.
-/

namespace SpecUpgrade

/-! ## Refusals -/

namespace Revision

/-- An accepted group is added as it is. -/
theorem submitAll_eq_ok {r r' : Revision} {group : List Edit} (h : r.submitAll group = .ok r') :
    r' = { r with edits := r.edits ++ group } := by
  unfold submitAll at h
  obtain ⟨staged, hstage, hpure⟩ := Tree.bind_eq_ok_iff.mp h
  have hstaged := ((stage_eq_ok_iff r [] group staged).mp hstage).1
  cases hpure
  rw [hstaged, List.nil_append]

theorem isOverlap_of_check {source : String} {edit : Edit} {accepted : List Edit}
    {refusal : Refusal} (hfits : edit.range.Fits source)
    (h : check source edit accepted = .error refusal) : refusal.isOverlap = true := by
  have hrange := (checkRange_eq_ok_iff source edit.range).mpr hfits
  rw [check, hrange] at h
  change checkConflict edit accepted = .error refusal at h
  unfold checkConflict at h
  split at h
  · cases h
    rfl
  · cases h

private theorem isOverlap_of_stage {r : Revision} {staged group : List Edit} {refusal : Refusal}
    (hfits : ∀ e ∈ group, e.range.Fits r.source) (h : stage r staged group = .error refusal) :
    refusal.isOverlap = true := by
  induction group generalizing staged with
  | nil => cases h
  | cons e group ih =>
    have he := hfits e (by simp)
    rw [stage] at h
    cases hold : check r.source e r.edits with
    | error refused =>
      rw [hold] at h
      cases h
      exact isOverlap_of_check he hold
    | ok _ =>
      cases hnew : check r.source e staged with
      | error refused =>
        rw [hold, hnew] at h
        cases h
        exact isOverlap_of_check he hnew
      | ok _ =>
        rw [hold, hnew] at h
        exact ih (fun f hf => hfits f (by simp [hf])) h

/-- A group whose edits all fit the text is refused only for an overlap. -/
theorem isOverlap_of_submitAll {r : Revision} {group : List Edit} {refusal : Refusal}
    (hfits : ∀ e ∈ group, e.range.Fits r.source) (h : r.submitAll group = .error refusal) :
    refusal.isOverlap = true := by
  unfold submitAll at h
  cases hs : stage r [] group with
  | error refused =>
    rw [hs] at h
    cases h
    exact isOverlap_of_stage hfits hs
  | ok staged =>
    rw [hs] at h
    cases h

end Revision

/-! ## Outcomes -/

/-- A place in a file, as it is counted in words. -/
structure AppliedRule.Fits (c : AppliedRule) : Prop where
  line : c.line < Word.bound32
  col : c.col < Word.bound32

structure Notice.Fits (n : Notice) : Prop where
  line : n.line < Word.bound32
  col : n.col < Word.bound32

namespace Match

/-- What stands in the way of a match after some edits were accepted. -/
def obstacle? (t : Tree) (facts : Facts) (accepted : List Edit) (m : Match) : Option Obstacle :=
  match m.apply t facts ⟨t.source, accepted⟩ with
  | .ok _ => none
  | .error o => some o

/-- A match and what stood in its way, if anything did. -/
structure Outcome where
  found : Match
  obstacle? : Option Obstacle

namespace Outcome

def converted (o : Outcome) : Bool := o.obstacle?.isNone

def edits (t : Tree) (o : Outcome) : List Edit := if o.converted then o.found.edits t else []

def place (t : Tree) (o : Outcome) : Position :=
  Position.ofOffset t.source (t.range o.found.node).start

def conversion? (t : Tree) (o : Outcome) : Option AppliedRule :=
  if o.converted then some ⟨o.found.rule.name, (o.place t).line, (o.place t).col⟩ else none

def notice? (t : Tree) (o : Outcome) : Option Notice :=
  o.obstacle?.map fun ob => ⟨ob.kind, ob.rule.name, ob.message, (o.place t).line, (o.place t).col⟩

/-- A match is told of exactly once. -/
theorem isSome_conversion? (t : Tree) (o : Outcome) :
    (o.conversion? t).isSome = (o.notice? t).isNone := by
  unfold conversion? notice? converted
  cases o.obstacle? <;> rfl

theorem isSome_conversion?_eq (t : Tree) (o : Outcome) :
    (o.conversion? t).isSome = o.converted := by
  unfold conversion?
  cases o.converted <;> rfl

theorem fits_of_mem_conversion? {t : Tree} (h : t.source.toList.length < Word.bound32 - 1)
    {o : Outcome} {c : AppliedRule} (hc : c ∈ o.conversion? t) : c.Fits := by
  have hplace := Position.ofOffset_lt_bound32 h (t.range o.found.node).start
  unfold conversion? at hc
  split at hc
  · cases hc
    exact ⟨hplace.1, hplace.2⟩
  · cases hc

theorem fits_of_mem_notice? {t : Tree} (h : t.source.toList.length < Word.bound32 - 1)
    {o : Outcome} {n : Notice} (hn : n ∈ o.notice? t) : n.Fits := by
  have hplace := Position.ofOffset_lt_bound32 h (t.range o.found.node).start
  obtain ⟨obstacle, -, rfl⟩ := Option.map_eq_some_iff.mp hn
  exact ⟨hplace.1, hplace.2⟩

/-- A match leaves all its edits or none. -/
theorem edits_eq (t : Tree) (o : Outcome) :
    o.edits t = if (o.conversion? t).isSome then o.found.edits t else [] := by
  unfold edits conversion?
  cases o.converted <;> rfl

end Outcome

/-- What becomes of matches that are tried one after the other. -/
def outcomes (t : Tree) (facts : Facts) (accepted : List Edit) : List Match → List Outcome
  | [] => []
  | m :: ms =>
    let o : Outcome := ⟨m, m.obstacle? t facts accepted⟩
    o :: outcomes t facts (accepted ++ o.edits t) ms

theorem map_found_outcomes (t : Tree) (facts : Facts) (accepted : List Edit) (ms : List Match) :
    (outcomes t facts accepted ms).map (·.found) = ms := by
  induction ms generalizing accepted with
  | nil => rfl
  | cons m ms ih => rw [outcomes, List.map_cons, ih]

theorem outcomes_append (t : Tree) (facts : Facts) (accepted : List Edit) (xs ys : List Match) :
    outcomes t facts accepted (xs ++ ys) = outcomes t facts accepted xs ++
      outcomes t facts (accepted ++ (outcomes t facts accepted xs).flatMap (Outcome.edits t)) ys := by
  induction xs generalizing accepted with
  | nil => simp [outcomes]
  | cons m xs ih =>
    rw [List.cons_append, outcomes, outcomes, ih, List.cons_append, List.flatMap_cons,
      List.append_assoc]

variable {t : Tree} {facts : Facts}

/-- An outcome depends on the edits that the matches before it have left. -/
theorem mem_outcomes {accepted : List Edit} {ms : List Match} {o : Outcome}
    (h : o ∈ outcomes t facts accepted ms) :
    ∃ before behind, ms = before ++ o.found :: behind ∧
      o.obstacle? = o.found.obstacle? t facts
        (accepted ++ (outcomes t facts accepted before).flatMap (Outcome.edits t)) := by
  induction ms generalizing accepted with
  | nil => cases h
  | cons m ms ih =>
    rw [outcomes] at h
    rcases List.mem_cons.mp h with rfl | h
    · exact ⟨[], ms, rfl, by simp [outcomes]⟩
    · obtain ⟨before, behind, rfl, hobstacle⟩ := ih h
      refine ⟨m :: before, behind, rfl, ?_⟩
      rw [hobstacle, outcomes, List.flatMap_cons, List.append_assoc]

theorem apply_of_obstacle?_eq_none {accepted : List Edit} {m : Match}
    (h : m.obstacle? t facts accepted = none) :
    m.apply t facts ⟨t.source, accepted⟩ = .ok ⟨t.source, accepted ++ m.edits t⟩ := by
  unfold obstacle? at h
  cases happly : m.apply t facts ⟨t.source, accepted⟩ with
  | error o =>
    rw [happly] at h
    cases h
  | ok r =>
    unfold apply at happly
    split at happly
    · cases happly
    · split at happly
      · rename_i hsubmit
        cases happly
        rw [Revision.submitAll_eq_ok hsubmit]
      · cases happly

theorem apply_of_obstacle?_eq_some {accepted : List Edit} {m : Match} {o : Obstacle}
    (h : m.obstacle? t facts accepted = some o) :
    m.apply t facts ⟨t.source, accepted⟩ = .error o := by
  unfold obstacle? at h
  cases happly : m.apply t facts ⟨t.source, accepted⟩ with
  | error o' =>
    rw [happly] at h
    cases h
    rfl
  | ok r =>
    rw [happly] at h
    cases h

/-- Nothing stands in the way of a match exactly when what it needs can be called and its edits may
stand beside those that are accepted. -/
theorem obstacle?_eq_none_iff {accepted : List Edit} {m : Match}
    (haccepted : Revision.Sound t.source accepted) :
    m.obstacle? t facts accepted = none ↔
      m.needs?.all (·.holds t facts m.node) = true ∧
        Revision.Sound t.source (accepted ++ m.edits t) := by
  have hsubmit : (∃ r, Revision.submitAll ⟨t.source, accepted⟩ (m.edits t) = .ok r) ↔
      Revision.Sound t.source (accepted ++ m.edits t) := by
    simp only [Revision.submitAll_eq_ok_iff (r := ⟨t.source, accepted⟩) haccepted]
    exact ⟨fun ⟨_, h⟩ => h.2, fun h => ⟨_, rfl, h⟩⟩
  rw [← hsubmit]
  unfold obstacle? apply
  cases hneeds : m.needs? with
  | none => cases Revision.submitAll ⟨t.source, accepted⟩ (m.edits t) <;> simp
  | some a =>
    cases hholds : a.holds t facts m.node with
    | false => simp [Option.filter, hholds]
    | true =>
      cases Revision.submitAll ⟨t.source, accepted⟩ (m.edits t) <;> simp [Option.filter, hholds]

/-- The edits that matches leave can all stand side by side. -/
theorem outcomes_sound {accepted : List Edit} (haccepted : Revision.Sound t.source accepted)
    (ms : List Match) :
    Revision.Sound t.source
      (accepted ++ (outcomes t facts accepted ms).flatMap (Outcome.edits t)) := by
  induction ms generalizing accepted with
  | nil => simpa [outcomes] using haccepted
  | cons m ms ih =>
    rw [outcomes, List.flatMap_cons, ← List.append_assoc]
    apply ih
    unfold Outcome.edits Outcome.converted
    cases ho : m.obstacle? t facts accepted with
    | none => exact ((obstacle?_eq_none_iff haccepted).mp ho).2
    | some o => simpa using haccepted

/-- One step of the conversion adds what the outcome of its match tells. -/
theorem step_eq_outcome (facts : Facts) (p : Progress) (hsource : p.revision.source = t.source)
    (m : Match) :
    p.step t facts m =
      let o : Outcome := ⟨m, m.obstacle? t facts p.revision.edits⟩
      ⟨⟨t.source, p.revision.edits ++ o.edits t⟩, p.conversions ++ (o.conversion? t).toList,
        p.notices ++ (o.notice? t).toList⟩ := by
  obtain ⟨⟨source, accepted⟩, conversions, notices⟩ := p
  cases hsource
  unfold Progress.step Outcome.edits Outcome.conversion? Outcome.notice? Outcome.converted
    Outcome.place
  cases ho : m.obstacle? t facts accepted with
  | none => simp [apply_of_obstacle?_eq_none ho]
  | some o => simp [apply_of_obstacle?_eq_some ho]

/-- The steps of the conversion, one after the other, add what the outcomes tell. -/
theorem foldl_step_eq_outcomes (p : Progress) (hsource : p.revision.source = t.source)
    (ms : List Match) :
    ms.foldl (Progress.step t facts) p =
      let os := outcomes t facts p.revision.edits ms
      ⟨⟨t.source, p.revision.edits ++ os.flatMap (Outcome.edits t)⟩,
        p.conversions ++ os.filterMap (Outcome.conversion? t),
        p.notices ++ os.filterMap (Outcome.notice? t)⟩ := by
  induction ms generalizing p with
  | nil =>
    obtain ⟨⟨source, accepted⟩, conversions, notices⟩ := p
    cases hsource
    simp [outcomes]
  | cons m ms ih =>
    have hstep := step_eq_outcome facts p hsource m
    rw [List.foldl_cons, ih _ (by rw [hstep])]
    simp only [hstep, outcomes, List.flatMap_cons, List.append_assoc]
    congr 2
    all_goals
      rw [List.filterMap_cons]
      split <;> simp_all

/-! ## Edits and refusals of a match -/

theorem node_of_at? {enabled : List Rule} {id : Nat} {m : Match} (h : at? t enabled id = some m) :
    m.node = id := by
  have hstands := at?_stands h
  cases m with
  | beClose node expected delta => exact hstands
  | stub node object tail messages => exact hstands.1
  | should node subject tail negative => exact hstands.1

/-- The edits of a match fit the source, wherever its parts stand. -/
theorem edits_fit {enabled : List Rule} {id : Nat} {m : Match} (ht : t.Built)
    (h : at? t enabled id = some m) : ∀ e ∈ m.edits t, e.range.Fits t.source := by
  have hstands := at?_stands h
  cases m with
  | beClose node expected delta =>
    intro e he
    rw [List.mem_singleton.mp he]
    exact Tree.range_fits ht node
  | stub node object tail messages =>
    obtain ⟨rfl, hparts⟩ := hstands
    simp only [edits, List.mem_cons, List.not_mem_nil, or_false, forall_eq_or_imp, forall_eq]
    exact ⟨Tree.range_fits ht object, hparts.fits ht⟩
  | should node subject tail negative =>
    obtain ⟨rfl, hparts⟩ := hstands
    simp only [edits, shouldEdits]
    split
    · rename_i call hcall
      simp only [List.mem_cons, List.not_mem_nil, or_false, forall_eq_or_imp, forall_eq]
      exact ⟨Tree.range_fits ht call, hparts.fits ht⟩
    · simp only [List.mem_cons, List.not_mem_nil, or_false, forall_eq_or_imp, forall_eq]
      exact ⟨Tree.range_fits ht subject, hparts.fits ht⟩

/-- Two things can stand in the way of a match: what it needs cannot be called, or its edits meet
edits that were accepted before. -/
theorem obstacle?_eq_some {enabled : List Rule} {id : Nat} {m : Match} {accepted : List Edit}
    {o : Obstacle} (ht : t.Built) (hm : at? t enabled id = some m)
    (h : m.obstacle? t facts accepted = some o) :
    (m.needs?.all (·.holds t facts m.node) = false ∧ ∃ method, o = .unavailable m.rule method) ∨
      ∃ accepted rejected, o = .conflict m.rule (.overlap accepted rejected) := by
  have happly := apply_of_obstacle?_eq_some h
  unfold apply at happly
  split at happly
  · rename_i a ha
    cases happly
    obtain ⟨hneeds, hholds⟩ := Option.filter_eq_some_iff.mp ha
    exact Or.inl ⟨by simpa [hneeds] using hholds, _, rfl⟩
  · split at happly
    · cases happly
    · rename_i refusal hsubmit
      cases happly
      have hoverlap := Revision.isOverlap_of_submitAll (edits_fit ht hm) hsubmit
      cases refusal with
      | overlap accepted rejected => exact Or.inr ⟨accepted, rejected, rfl⟩
      | outOfBounds range length => cases hoverlap
      | insideCharacter range => cases hoverlap

end Match

namespace Tree

def progress (t : Tree) (enabled : List Rule) (facts : Facts) : Progress :=
  (Match.all t enabled).foldl (Progress.step t facts) ⟨.ofSource t.source, [], []⟩

def outcomes (t : Tree) (enabled : List Rule) (facts : Facts) : List Match.Outcome :=
  Match.outcomes t facts [] (Match.all t enabled)

theorem progress_eq (t : Tree) (enabled : List Rule) (facts : Facts) :
    t.progress enabled facts =
      let os := t.outcomes enabled facts
      ⟨⟨t.source, os.flatMap (Match.Outcome.edits t)⟩, os.filterMap (Match.Outcome.conversion? t),
        os.filterMap (Match.Outcome.notice? t)⟩ :=
  Match.foldl_step_eq_outcomes ⟨.ofSource t.source, [], []⟩ rfl _

theorem convert_eq (t : Tree) (enabled : List Rule) (facts : Facts) :
    t.convert enabled facts =
      let p := t.progress enabled facts
      ⟨p.revision.render, p.revision.render != t.source, p.conversions, p.notices⟩ :=
  rfl

theorem at?_of_mem_all {t : Tree} {enabled : List Rule} {m : Match}
    (h : m ∈ Match.all t enabled) : Match.at? t enabled m.node = some m := by
  obtain ⟨id, -, hm⟩ := List.mem_filterMap.mp h
  rw [Match.node_of_at? hm]
  exact hm

theorem found_mem_all {t : Tree} {enabled : List Rule} {facts : Facts} {o : Match.Outcome}
    (h : o ∈ t.outcomes enabled facts) : o.found ∈ Match.all t enabled := by
  rw [← Match.map_found_outcomes t facts [] (Match.all t enabled)]
  exact List.mem_map_of_mem h

end Tree
end SpecUpgrade
