import SpecUpgrade.Proofs.InPlace
import SpecUpgrade.Proofs.Placement

/-!
Edits submitted one by one. A group is accepted or refused as its edits are one after the other, but a
group that is refused leaves nothing behind. Edits that do not conflict are all accepted in any order,
and the text is the same as long as edits of one anchor and side keep theirs.
-/

namespace SpecUpgrade

namespace Revision

/-- Submits edits one after the other, up to the first that is refused. -/
def submitEach (r : Revision) (edits : List Edit) : Except Refusal Revision := edits.foldlM submit r

theorem submitEach_cons (r : Revision) (edit : Edit) (edits : List Edit) :
    r.submitEach (edit :: edits) = (r.submit edit).bind (submitEach · edits) := rfl

/-! ## Groups -/

/-- An edit passes against two lists when it passes against one and then against the other, and it is
refused for the same conflict. -/
theorem check_append (source : String) (edit : Edit) (xs ys : List Edit) :
    check source edit (xs ++ ys) =
      (check source edit xs).bind fun _ => check source edit ys := by
  unfold check checkConflict
  rw [List.find?_append]
  cases checkRange source edit.range with
  | error refusal => rfl
  | ok _ => cases xs.find? (·.conflicts edit) <;> rfl

/-- Staging refuses what is refused one by one and otherwise collects what is accepted. -/
theorem submitEach_staged (r : Revision) (staged group : List Edit) :
    submitEach { r with edits := r.edits ++ staged } group =
      (stage r staged group).map fun all => { r with edits := r.edits ++ all } := by
  induction group generalizing staged with
  | nil => rfl
  | cons edit group ih =>
    rw [submitEach_cons, submit, check_append, stage]
    cases check r.source edit r.edits with
    | error refusal => rfl
    | ok _ =>
      cases check r.source edit staged with
      | error refusal => rfl
      | ok _ =>
        have hnext := ih (staged ++ [edit])
        rw [← List.append_assoc] at hnext
        exact hnext

theorem submitAll_eq_submitEach (r : Revision) (group : List Edit) :
    r.submitAll group = r.submitEach group := by
  have hstaged := submitEach_staged r [] group
  rw [List.append_nil] at hstaged
  rw [hstaged, submitAll]
  cases stage r [] group <;> rfl

theorem submit_eq_ok {r r' : Revision} {edit : Edit} (h : r.submit edit = .ok r') :
    r' = { r with edits := r.edits ++ [edit] } := by
  unfold submit at h
  cases hc : check r.source edit r.edits with
  | error refusal =>
    rw [hc] at h
    cases h
  | ok _ =>
    rw [hc] at h
    cases h
    rfl

/-- Either all edits are accepted, or one is the first to be refused. -/
theorem submitEach_cases (r : Revision) (edits : List Edit) :
    r.submitEach edits = .ok { r with edits := r.edits ++ edits } ∨
      ∃ refusal done edit rest, edits = done ++ edit :: rest ∧
        r.submitEach done = .ok { r with edits := r.edits ++ done } ∧
        submit { r with edits := r.edits ++ done } edit = .error refusal ∧
        r.submitEach edits = .error refusal := by
  induction edits generalizing r with
  | nil => exact Or.inl (by rw [List.append_nil]; rfl)
  | cons edit edits ih =>
    cases hs : r.submit edit with
    | error refusal =>
      refine Or.inr ⟨refusal, [], edit, edits, rfl, ?_, ?_, ?_⟩
      · rw [List.append_nil]
        rfl
      · rw [List.append_nil]
        exact hs
      · rw [submitEach_cons, hs]
        rfl
    | ok r' =>
      have hcons : ∀ more, r.submitEach (edit :: more) = r'.submitEach more := fun more => by
        rw [submitEach_cons, hs]
        rfl
      have hmore : ∀ more : List Edit, { r' with edits := r'.edits ++ more } =
          { r with edits := r.edits ++ edit :: more } := fun more => by
        rw [submit_eq_ok hs, List.append_assoc]
        rfl
      rcases ih r' with hall | ⟨refusal, done, failing, rest, hsplit, hdone, hfail, hrefused⟩
      · exact Or.inl (by rw [hcons, hall, hmore])
      · refine Or.inr ⟨refusal, edit :: done, failing, rest, by rw [hsplit]; rfl, ?_, ?_, ?_⟩
        · rw [hcons, hdone, hmore]
        · rw [← hmore]
          exact hfail
        · rw [hcons, hrefused]

/-! ## Edits in place -/

/-- Changes the accepted edits as it goes; what has been changed stays so when a later step fails. -/
abbrev InPlace := EStateM Refusal (List Edit)

def checkInPlace (source : String) (edit : Edit) (against : List Edit) : InPlace Unit :=
  match check source edit against with
  | .ok () => pure ()
  | .error refusal => throw refusal

def submitInPlace (source : String) (edit : Edit) : InPlace Unit := do
  checkInPlace source edit (← get)
  modify (· ++ [edit])

def stageInPlace (source : String) (staged : List Edit) : List Edit → InPlace (List Edit)
  | [] => pure staged
  | edit :: rest => do
    checkInPlace source edit (← get)
    checkInPlace source edit staged
    stageInPlace source (staged ++ [edit]) rest

def submitAllInPlace (source : String) (group : List Edit) : InPlace Unit := do
  let staged ← stageInPlace source [] group
  modify (· ++ staged)

def Call.performInPlace (source : String) : Call → InPlace Unit
  | submit edit => submitInPlace source edit
  | submitAll group => submitAllInPlace source group
  | wrap range before after => submitAllInPlace source (Edit.surround range before after)
  | insertBefore range text => submitInPlace source (.insertBefore range text)
  | insertAfter range text => submitInPlace source (.insertAfter range text)
  | replace range text => submitInPlace source (.replace range text)
  | remove range => submitInPlace source (.remove range)

/-- The accepted edits after one more call in place, be it that it is refused. -/
def stepInPlace (source : String) (accepted : List Edit) (c : Call) : List Edit :=
  match c.performInPlace source accepted with
  | .ok _ accepted => accepted
  | .error _ accepted => accepted

theorem checkInPlace_eq (source : String) (edit : Edit) (against accepted : List Edit) :
    checkInPlace source edit against accepted = leaving accepted (check source edit against) := by
  unfold checkInPlace
  cases check source edit against <;> rfl

theorem stageInPlace_eq (source : String) (staged group accepted : List Edit) :
    stageInPlace source staged group accepted =
      leaving accepted (stage ⟨source, accepted⟩ staged group) := by
  induction group generalizing staged with
  | nil => rfl
  | cons edit group ih =>
    have hold := checkInPlace_eq source edit accepted accepted
    have hnew := checkInPlace_eq source edit staged accepted
    rw [stageInPlace, get_bind, stage]
    cases ho : check source edit accepted with
    | error refusal =>
      rw [ho] at hold
      exact bind_of_error hold
    | ok _ =>
      rw [ho] at hold
      rw [bind_of_ok hold]
      cases hn : check source edit staged with
      | error refusal =>
        rw [hn] at hnew
        exact bind_of_error hnew
      | ok _ =>
        rw [hn] at hnew
        rw [bind_of_ok hnew]
        exact ih (staged ++ [edit])

/-- What a call in place comes to: the new edits, or a refusal with the old ones. -/
def placing (accepted : List Edit) : Except Refusal Revision →
    EStateM.Result Refusal (List Edit) Unit
  | .ok r => .ok () r.edits
  | .error refusal => .error refusal accepted

theorem submitInPlace_eq (r : Revision) (edit : Edit) :
    submitInPlace r.source edit r.edits = placing r.edits (r.submit edit) := by
  have hcheck := checkInPlace_eq r.source edit r.edits r.edits
  rw [submitInPlace, get_bind, submit]
  cases hc : check r.source edit r.edits with
  | error refusal =>
    rw [hc] at hcheck
    exact bind_of_error hcheck
  | ok _ =>
    rw [hc] at hcheck
    exact bind_of_ok hcheck

theorem submitAllInPlace_eq (r : Revision) (group : List Edit) :
    submitAllInPlace r.source group r.edits = placing r.edits (r.submitAll group) := by
  have hstage := stageInPlace_eq r.source [] group r.edits
  rw [submitAllInPlace, submitAll]
  cases hs : stage r [] group with
  | error refusal =>
    rw [hs] at hstage
    exact bind_of_error hstage
  | ok staged =>
    rw [hs] at hstage
    exact bind_of_ok hstage

theorem Call.performInPlace_eq (r : Revision) (c : Call) :
    c.performInPlace r.source r.edits = placing r.edits (c.perform r) := by
  cases c with
  | submitAll group => exact submitAllInPlace_eq r group
  | wrap range before after => exact submitAllInPlace_eq r _
  | submit edit => exact submitInPlace_eq r edit
  | insertBefore range text => exact submitInPlace_eq r _
  | insertAfter range text => exact submitInPlace_eq r _
  | replace range text => exact submitInPlace_eq r _
  | remove range => exact submitInPlace_eq r _

/-- The edits after calls in place are those of the revision after them. -/
theorem foldl_stepInPlace {r : Revision} (hr : Sound r.source r.edits) (calls : List Call) :
    calls.foldl (stepInPlace r.source) r.edits = (calls.foldl step r).edits := by
  induction calls generalizing r with
  | nil => rfl
  | cons c calls ih =>
    have hstep : stepInPlace r.source r.edits c = (r.step c).edits := by
      rw [stepInPlace, Call.performInPlace_eq, step]
      cases c.perform r <;> rfl
    obtain ⟨hsource, hsound⟩ := step_sound r c hr
    rw [← hsource] at hsound
    rw [List.foldl_cons, hstep, List.foldl_cons, ← ih hsound, hsource]

/-- A group as a whole, in place and not: all of it is accepted, or it is refused as the first of its
edits is that is refused. -/
theorem submitAll_cases (r : Revision) (group : List Edit) :
    r.submitAll group = .ok { r with edits := r.edits ++ group } ∧
        submitAllInPlace r.source group r.edits = .ok () (r.edits ++ group) ∨
      ∃ refusal done edit rest, group = done ++ edit :: rest ∧
        r.submitEach done = .ok { r with edits := r.edits ++ done } ∧
        submit { r with edits := r.edits ++ done } edit = .error refusal ∧
        r.submitAll group = .error refusal ∧
        submitAllInPlace r.source group r.edits = .error refusal r.edits := by
  have hplace := submitAllInPlace_eq r group
  rcases submitEach_cases r group with
    hall | ⟨refusal, done, edit, rest, hsplit, hdone, hfail, hrefused⟩
  · rw [← submitAll_eq_submitEach] at hall
    rw [hall] at hplace
    exact Or.inl ⟨hall, hplace⟩
  · rw [← submitAll_eq_submitEach] at hrefused
    rw [hrefused] at hplace
    exact Or.inr ⟨refusal, done, edit, rest, hsplit, hdone, hfail, hrefused, hplace⟩

/-- Whatever calls came before, a group is accepted exactly when its edits are one after the other, and
then the same edits are there. Otherwise it is refused as the first of them is that is refused, and
although edits are changed in place none has been changed. -/
theorem submitAll_all_or_none (source : String) (calls : List Call) (group : List Edit) :
    let r := afterCalls source calls
    calls.foldl (stepInPlace source) [] = r.edits ∧ r.submitAll group = r.submitEach group ∧
      (r.submitAll group = .ok ⟨source, r.edits ++ group⟩ ∧
          submitAllInPlace source group r.edits = .ok () (r.edits ++ group) ∨
        ∃ refusal done edit rest, group = done ++ edit :: rest ∧
          r.submitEach done = .ok ⟨source, r.edits ++ done⟩ ∧
          submit ⟨source, r.edits ++ done⟩ edit = .error refusal ∧
          r.submitAll group = .error refusal ∧
          submitAllInPlace source group r.edits = .error refusal r.edits) := by
  intro r
  have hsource : r.source = source := afterCalls_source source calls
  have hcases := submitAll_cases r group
  rw [hsource] at hcases
  exact ⟨foldl_stepInPlace (r := ofSource source) (sound_nil source) calls,
    submitAll_eq_submitEach r group, hcases⟩

end Revision

/-! ## Other orders -/

/-- The same edits in an order in which those of one anchor and side come as before. -/
structure Edit.Reordered (xs ys : List Edit) : Prop where
  perm : xs.Perm ys
  filter_eq : ∀ (range : Span) (side : Side),
    xs.filter (fun e => e.range = range ∧ e.side = side) =
      ys.filter fun e => e.range = range ∧ e.side = side

theorem Edit.tied_comesBefore (a : Edit) :
    tied comesBefore a = fun e => decide (e.range = a.range ∧ e.side = a.side) := by
  funext e
  rw [tied, Bool.eq_iff_iff, Bool.and_eq_true, decide_eq_true_eq]
  refine ⟨fun h => anchor_eq h.2 h.1, fun h => ?_⟩
  simp [comesBefore_iff, position, rank, nesting, h.1, h.2]

namespace Revision

theorem placed_reordered {xs ys : List Edit} (h : Edit.Reordered xs ys) : placed xs = placed ys := by
  refine mergeSort_eq_of_filter_tied Edit.comesBefore_trans Edit.comesBefore_total fun a => ?_
  rw [Edit.tied_comesBefore]
  exact h.filter_eq a.range a.side

/-- Edits that fit the source and do not conflict are all accepted, one after the other. -/
theorem submitEach_of_sound {source : String} {edits : List Edit} (h : Sound source edits) :
    (ofSource source).submitEach edits = .ok ⟨source, edits⟩ := by
  rw [← submitAll_eq_submitEach]
  exact (submitAll_eq_ok_iff (r := ofSource source) (sound_nil source) edits _).mpr ⟨rfl, h⟩

/-- Edits that fit the source and of which no two conflict are accepted in any order, and as long as
those of one anchor and side keep their order, the text is the same. -/
theorem render_reordered {source : String} {xs ys : List Edit}
    (hfits : ∀ e ∈ xs, e.range.Fits source) (hapart : xs.Pairwise Edit.Apart)
    (h : Edit.Reordered xs ys) :
    (ofSource source).submitEach xs = .ok ⟨source, xs⟩ ∧
      (ofSource source).submitEach ys = .ok ⟨source, ys⟩ ∧
      render ⟨source, xs⟩ = render ⟨source, ys⟩ := by
  have hsound : Sound source xs := ⟨hfits, hapart⟩
  refine ⟨submitEach_of_sound hsound, submitEach_of_sound (sound_perm h.perm hsound), ?_⟩
  have hplaced := placed_reordered h
  unfold placed at hplaced
  rw [render, render, hplaced]

/-- A replacement, two texts in front of its range and one behind the character before it, and the same
from left to right. -/
theorem render_reordered_shared :
    let range : Span := ⟨1, 3, by decide⟩
    let first := Edit.insertBefore range "<"
    let second := Edit.insertBefore range "("
    let replaced := Edit.replace range "x"
    let behind := Edit.insertAfter ⟨0, 1, by decide⟩ ";"
    Edit.Reordered [replaced, first, behind, second] [behind, first, second, replaced] ∧
      (ofSource "aéb").submitEach [replaced, first, behind, second] =
        .ok ⟨"aéb", [replaced, first, behind, second]⟩ ∧
      render ⟨"aéb", [replaced, first, behind, second]⟩ = "a;<(xb" := by
  intro range first second replaced behind
  have hreordered : Edit.Reordered [replaced, first, behind, second]
      [behind, first, second, replaced] := by
    refine ⟨by decide, fun range side => ?_⟩
    cases side <;> simp [first, second, replaced, behind, Edit.insertBefore, Edit.insertAfter,
      Edit.replace, List.filter_cons]
  have hfits : ∀ e ∈ [replaced, first, behind, second], e.range.Fits "aéb" := by decide
  obtain ⟨haccepted, -, htext⟩ := render_reordered hfits (by decide) hreordered
  refine ⟨hreordered, haccepted, htext.trans ?_⟩
  rw [render, List.mergeSort_of_pairwise (by decide)]
  decide

end Revision
end SpecUpgrade
