import SpecUpgrade.Proofs.Bytes
import SpecUpgrade.Revision

/-!
What submission accepts. The accepted edits of a revision always fit its text and never conflict
with each other; a group is accepted exactly when it leaves them so.
-/

namespace SpecUpgrade

/-- The range lies in the source and cuts no character. -/
structure Span.Fits (range : Span) (source : String) : Prop where
  stop_le : range.stop ≤ Text.byteLength source.toList
  start_boundary : Text.isBoundary source.toList range.start = true
  stop_boundary : Text.isBoundary source.toList range.stop = true

instance (range : Span) (source : String) : Decidable (range.Fits source) :=
  decidable_of_iff (range.stop ≤ Text.byteLength source.toList ∧
      Text.isBoundary source.toList range.start = true ∧
      Text.isBoundary source.toList range.stop = true)
    ⟨fun h => ⟨h.1, h.2.1, h.2.2⟩, fun h => ⟨h.1, h.2, h.3⟩⟩

/-- One span ends where the other starts or before. -/
def Span.Beside (a b : Span) : Prop := a.stop ≤ b.start ∨ b.stop ≤ a.start

instance (a b : Span) : Decidable (a.Beside b) := inferInstanceAs (Decidable (_ ∨ _))

namespace Edit

/-- Two edits that may stand side by side. -/
def Apart (a b : Edit) : Prop := a.conflicts b = false

instance (a b : Edit) : Decidable (a.Apart b) := inferInstanceAs (Decidable (_ = _))

/-- Two edits conflict unless both modify no more than a point or one ends where the other starts
or before. -/
theorem apart_iff (a b : Edit) :
    a.Apart b ↔ a.region.start = a.region.stop ∧ b.region.start = b.region.stop ∨
      a.region.stop ≤ b.region.start ∨ b.region.stop ≤ a.region.start := by
  have ha := a.region.start_le_stop
  have hb := b.region.start_le_stop
  unfold Apart conflicts regionsClash Span.overlaps
  cases hea : a.region.isEmpty <;> cases heb : b.region.isEmpty <;>
    simp only [Span.isEmpty, beq_eq_false_iff_ne, beq_iff_eq] at hea heb <;>
    simp only [Bool.and_eq_false_iff, decide_eq_false_iff_not, true_iff] <;> omega

theorem Apart.symm {a b : Edit} (h : a.Apart b) : b.Apart a := by
  rw [apart_iff] at h ⊢
  omega

end Edit

namespace Revision

theorem checkRange_eq_ok_iff (source : String) (range : Span) :
    checkRange source range = .ok () ↔ range.Fits source := by
  unfold checkRange
  simp only
  constructor
  · intro h
    split at h
    · cases h
    · rename_i hstop
      split at h
      · rename_i hb
        rw [Bool.and_eq_true] at hb
        exact ⟨by omega, hb.1, hb.2⟩
      · cases h
  · intro h
    rw [if_neg (Nat.not_lt.mpr h.stop_le), h.start_boundary, h.stop_boundary]
    rfl

theorem checkConflict_eq_ok_iff (edit : Edit) (accepted : List Edit) :
    checkConflict edit accepted = .ok () ↔ ∀ a ∈ accepted, a.Apart edit := by
  unfold checkConflict
  cases hf : accepted.find? (·.conflicts edit) with
  | some other =>
    have hmem := List.mem_of_find?_eq_some hf
    have hclash := List.find?_some hf
    simp only [reduceCtorEq, false_iff]
    intro h
    rw [h other hmem] at hclash
    cases hclash
  | none =>
    simp only [true_iff]
    intro a ha
    simpa [Edit.Apart] using List.find?_eq_none.mp hf a ha

theorem check_eq_ok_iff (source : String) (edit : Edit) (accepted : List Edit) :
    check source edit accepted = .ok () ↔
      edit.range.Fits source ∧ ∀ a ∈ accepted, a.Apart edit := by
  rw [← checkRange_eq_ok_iff, ← checkConflict_eq_ok_iff, check]
  cases hr : checkRange source edit.range with
  | error e => simp [bind, Except.bind]
  | ok u => simp [bind, Except.bind]

/-- The edits fit the source, and any two of them may stand side by side. -/
structure Sound (source : String) (edits : List Edit) : Prop where
  fits : ∀ e ∈ edits, e.range.Fits source
  apart : edits.Pairwise Edit.Apart

theorem sound_nil (source : String) : Sound source [] :=
  ⟨by simp, List.Pairwise.nil⟩

theorem sound_append_iff (source : String) (xs ys : List Edit) :
    Sound source (xs ++ ys) ↔
      Sound source xs ∧ Sound source ys ∧ ∀ x ∈ xs, ∀ y ∈ ys, x.Apart y := by
  constructor
  · rintro ⟨hfits, hapart⟩
    obtain ⟨hx, hy, hxy⟩ := List.pairwise_append.mp hapart
    exact ⟨⟨fun e he => hfits e (by simp [he]), hx⟩,
      ⟨fun e he => hfits e (by simp [he]), hy⟩, hxy⟩
  · rintro ⟨hx, hy, hxy⟩
    refine ⟨fun e he => ?_, List.pairwise_append.mpr ⟨hx.apart, hy.apart, hxy⟩⟩
    rcases List.mem_append.mp he with he | he
    · exact hx.fits e he
    · exact hy.fits e he

theorem sound_perm {source : String} {xs ys : List Edit} (hp : xs.Perm ys)
    (h : Sound source xs) : Sound source ys :=
  ⟨fun e he => h.fits e (hp.mem_iff.mpr he), hp.pairwise h.apart fun h => h.symm⟩

private theorem sound_cons_iff (source : String) (e : Edit) (es : List Edit) :
    Sound source (e :: es) ↔
      e.range.Fits source ∧ (∀ b ∈ es, e.Apart b) ∧ Sound source es := by
  constructor
  · rintro ⟨hfits, hapart⟩
    obtain ⟨he, hes⟩ := List.pairwise_cons.mp hapart
    exact ⟨hfits e (by simp), he, fun b hb => hfits b (by simp [hb]), hes⟩
  · rintro ⟨hfits, he, hes⟩
    refine ⟨fun b hb => ?_, List.pairwise_cons.mpr ⟨he, hes.apart⟩⟩
    rcases List.mem_cons.mp hb with rfl | hb
    · exact hfits
    · exact hes.fits b hb

/-- Staging keeps the group as it is, and succeeds exactly when the group is sound and conflicts
neither with the accepted edits nor with those staged before. -/
theorem stage_eq_ok_iff (r : Revision) (staged group result : List Edit) :
    stage r staged group = .ok result ↔
      result = staged ++ group ∧ Sound r.source group ∧
        ∀ a ∈ r.edits ++ staged, ∀ e ∈ group, a.Apart e := by
  induction group generalizing staged with
  | nil =>
    simp only [stage, List.append_nil, Except.ok.injEq]
    exact ⟨fun h => ⟨h.symm, sound_nil _, by simp⟩, fun h => h.1.symm⟩
  | cons e group ih =>
    have hstep : stage r staged (e :: group) = .ok result ↔
        check r.source e r.edits = .ok () ∧ check r.source e staged = .ok () ∧
          stage r (staged ++ [e]) group = .ok result := by
      rw [stage]
      cases check r.source e r.edits <;> cases check r.source e staged <;>
        simp [bind, Except.bind]
    rw [hstep, check_eq_ok_iff, check_eq_ok_iff, ih, sound_cons_iff]
    constructor
    · rintro ⟨⟨hfits, hold⟩, ⟨-, hstaged⟩, rfl, hgroup, hapart⟩
      refine ⟨by simp, ⟨hfits, fun b hb => hapart e (by simp) b hb, hgroup⟩, ?_⟩
      intro a ha b hb
      rcases List.mem_cons.mp hb with rfl | hb
      · rcases List.mem_append.mp ha with ha | ha
        · exact hold a ha
        · exact hstaged a ha
      · exact hapart a (by simpa [or_assoc] using Or.inl (List.mem_append.mp ha)) b hb
    · rintro ⟨rfl, ⟨hfits, he, hgroup⟩, hapart⟩
      refine ⟨⟨hfits, fun a ha => hapart a (by simp [ha]) e (by simp)⟩,
        ⟨hfits, fun a ha => hapart a (by simp [ha]) e (by simp)⟩, by simp, hgroup, ?_⟩
      intro a ha b hb
      rw [← List.append_assoc, List.mem_append] at ha
      rcases ha with ha | ha
      · exact hapart a ha b (by simp [hb])
      · rw [List.mem_singleton.mp ha]
        exact he b hb

/-- A group is accepted exactly when the accepted edits stay sound with it. -/
theorem submitAll_eq_ok_iff {r : Revision} (hr : Sound r.source r.edits) (group : List Edit)
    (r' : Revision) :
    r.submitAll group = .ok r' ↔
      r' = { r with edits := r.edits ++ group } ∧ Sound r.source (r.edits ++ group) := by
  have hstage : r.submitAll group = .ok r' ↔
      stage r [] group = .ok group ∧ r' = { r with edits := r.edits ++ group } := by
    unfold submitAll
    cases hs : stage r [] group with
    | error e => simp [bind, Except.bind]
    | ok staged =>
      obtain ⟨rfl, -⟩ := (stage_eq_ok_iff r [] group staged).mp hs
      simp [bind, Except.bind, pure, Except.pure, eq_comm]
  rw [hstage, stage_eq_ok_iff, sound_append_iff]
  simp only [List.nil_append, true_and, List.append_nil]
  constructor
  · rintro ⟨⟨hgroup, hapart⟩, rfl⟩
    exact ⟨rfl, hr, hgroup, hapart⟩
  · rintro ⟨rfl, -, hgroup, hapart⟩
    exact ⟨⟨hgroup, hapart⟩, rfl⟩

theorem submit_eq_submitAll (r : Revision) (edit : Edit) : r.submit edit = r.submitAll [edit] := by
  unfold submit submitAll stage stage
  cases hc : check r.source edit r.edits with
  | error e => simp [bind, Except.bind]
  | ok u =>
    have hfits := ((check_eq_ok_iff _ _ _).mp hc).1
    have hnil : check r.source edit [] = .ok () := (check_eq_ok_iff _ _ _).mpr ⟨hfits, by simp⟩
    simp [bind, Except.bind, pure, Except.pure, hnil]

/-! ## Runs of calls -/

/-- What can be asked of a revision. -/
inductive Call where
  | submit (edit : Edit)
  | submitAll (group : List Edit)
  | wrap (range : Span) (before after : String)
  | insertBefore (range : Span) (text : String)
  | insertAfter (range : Span) (text : String)
  | replace (range : Span) (text : String)
  | remove (range : Span)

def Call.perform (r : Revision) : Call → Except Refusal Revision
  | submit edit => r.submit edit
  | submitAll group => r.submitAll group
  | wrap range before after => r.wrap range before after
  | insertBefore range text => r.submit (.insertBefore range text)
  | insertAfter range text => r.submit (.insertAfter range text)
  | replace range text => r.submit (.replace range text)
  | remove range => r.submit (.remove range)

def Call.group : Call → List Edit
  | submit edit => [edit]
  | submitAll group => group
  | wrap range before after => Edit.surround range before after
  | insertBefore range text => [.insertBefore range text]
  | insertAfter range text => [.insertAfter range text]
  | replace range text => [.replace range text]
  | remove range => [.remove range]

theorem Call.perform_eq_submitAll (r : Revision) (c : Call) :
    c.perform r = r.submitAll c.group := by
  cases c with
  | submitAll group => rfl
  | wrap range before after => rfl
  | submit edit => exact submit_eq_submitAll r edit
  | insertBefore range text => exact submit_eq_submitAll r _
  | insertAfter range text => exact submit_eq_submitAll r _
  | replace range text => exact submit_eq_submitAll r _
  | remove range => exact submit_eq_submitAll r _

/-- Does a call; one that is refused changes nothing. -/
def step (r : Revision) (c : Call) : Revision :=
  match c.perform r with
  | .ok r' => r'
  | .error _ => r

/-- A revision of a source after calls, accepted or refused. -/
def afterCalls (source : String) (calls : List Call) : Revision :=
  calls.foldl step (ofSource source)

theorem step_sound (r : Revision) (c : Call) (hr : Sound r.source r.edits) :
    (r.step c).source = r.source ∧ Sound r.source (r.step c).edits := by
  unfold step
  cases hc : c.perform r with
  | error e => exact ⟨rfl, hr⟩
  | ok r' =>
    rw [Call.perform_eq_submitAll] at hc
    obtain ⟨rfl, hsound⟩ := (submitAll_eq_ok_iff hr _ _).mp hc
    exact ⟨rfl, hsound⟩

theorem foldl_step_sound (calls : List Call) (r : Revision) (hr : Sound r.source r.edits) :
    (calls.foldl step r).source = r.source ∧ Sound r.source (calls.foldl step r).edits := by
  induction calls generalizing r with
  | nil => exact ⟨rfl, hr⟩
  | cons c calls ih =>
    obtain ⟨hsource, hsound⟩ := step_sound r c hr
    rw [← hsource] at hsound ⊢
    exact ih (r.step c) hsound

theorem afterCalls_source (source : String) (calls : List Call) :
    (afterCalls source calls).source = source :=
  (foldl_step_sound calls (ofSource source) (sound_nil source)).1

theorem afterCalls_sound (source : String) (calls : List Call) :
    Sound source (afterCalls source calls).edits :=
  (foldl_step_sound calls (ofSource source) (sound_nil source)).2

end Revision
end SpecUpgrade
