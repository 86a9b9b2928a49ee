import SpecUpgrade.Proofs.Layout
import SpecUpgrade.Proofs.Windows

/-!
Which matches a conversion converts. The matches come in pre-order, and in a well-formed tree the
edits of a match lie in its call: they are accepted unless a replacement around the call is there
already, and then none of them is.
-/

namespace SpecUpgrade

/-! ## One node at a time -/

/-- The match at a node, if what it needs can be called there. -/
def Tree.convertible? (t : Tree) (enabled : List Rule) (facts : Facts) (id : Nat) : Option Match :=
  (Match.at? t enabled id).filter fun m => m.needs?.all (·.holds t facts m.node)

namespace Revision

/-- What a conversion does to the edits at one node. -/
def visit (t : Tree) (enabled : List Rule) (facts : Facts) (r : Revision) (id : Nat) : Revision :=
  match t.convertible? enabled facts id with
  | none => r
  | some m =>
    match r.submitAll (m.edits t) with
    | .ok r => r
    | .error _ => r

variable {t : Tree} {enabled : List Rule} {facts : Facts} {r : Revision}

/-- Visits to the nodes add the edits to those that are there. -/
structure Adds (t : Tree) (enabled : List Rule) (facts : Facts) (r : Revision) (ids : List Nat)
    (added : List Edit) : Prop where
  folded : ids.foldl (visit t enabled facts) r = { r with edits := r.edits ++ added }
  sound : Sound r.source (r.edits ++ added)

theorem Adds.append {xs ys : List Nat} {front back : List Edit}
    (hxs : Adds t enabled facts r xs front)
    (hys : Adds t enabled facts { r with edits := r.edits ++ front } ys back) :
    Adds t enabled facts r (xs ++ ys) (front ++ back) := by
  constructor
  · rw [List.foldl_append, hxs.folded, hys.folded, List.append_assoc]
  · rw [← List.append_assoc]
    exact hys.sound

end Revision

/-! ## The edits of a match -/

/-- The edit ends before the span or starts behind it. -/
def Edit.ClearOf (e : Edit) (span : Span) : Prop :=
  e.region.stop ≤ span.start ∨ span.stop ≤ e.region.start

theorem Edit.ClearOf.apart {e f : Edit} {span : Span} (he : e.ClearOf span) (hf : f.LiesIn span) :
    e.Apart f := by
  have hstart := hf.region_start
  have hstop := hf.region_stop_le
  have hle := hf.start_le
  have hle' := hf.stop_le
  rw [Edit.apart_iff]
  unfold Edit.ClearOf at he
  omega

theorem Edit.ClearOf.mono {e : Edit} {inner outer : Span} (h : e.ClearOf outer)
    (hstart : outer.start ≤ inner.start) (hstop : inner.stop ≤ outer.stop) : e.ClearOf inner := by
  unfold Edit.ClearOf at *
  omega

theorem Edit.LiesIn.clearOf {e : Edit} {span other : Span} (h : e.LiesIn span)
    (hsep : span.stop ≤ other.start ∨ other.stop ≤ span.start) : e.ClearOf other := by
  have hstart := h.region_start
  have hstop := h.region_stop_le
  have hle := h.start_le
  have hle' := h.stop_le
  unfold Edit.ClearOf
  omega

namespace Match

variable {t : Tree} {enabled : List Rule} {id : Nat} {m : Match}

/-- The node makes a block a value: it is a lambda literal, or a call of `lambda` or `proc`. -/
def MakesBlock (t : Tree) (call : Nat) : Prop :=
  t.kind call = "lambda" ∨ t.kind call = "send" ∧ t.receiver? call = none ∧
    (t.methodName? call = some "lambda" ∨ t.methodName? call = some "proc")

theorem constructor?_eq_some {subject call : Nat} (h : constructor? t subject = some call) :
    t.kind subject = "block" ∧ t.childNode? subject 0 = some call ∧ MakesBlock t call := by
  simp only [constructor?, Option.bind_eq_bind, Option.bind_eq_some_iff] at h
  obtain ⟨_, hkind, call', hcall, -, -, _, -, h⟩ := h
  split at h
  · rename_i hmakes
    cases h
    refine ⟨by simpa [guard] using hkind, hcall, ?_⟩
    simpa [MakesBlock, and_assoc] using hmakes
  · cases h

namespace Parts

variable {subject : Nat} {tail : Span}

theorem subject_nonempty (h : Parts t id subject tail) (hwf : t.WellFormed enabled) :
    (t.range subject).start < (t.range subject).stop :=
  Span.start_lt_stop (hwf.receivers id subject h.receiver)

theorem subject_inside (h : Parts t id subject tail) (hwf : t.WellFormed enabled) :
    (t.range id).start ≤ (t.range subject).start ∧
      (t.range subject).stop ≤ (t.range id).stop :=
  hwf.child_inside (by rw [h.childIds]; simp) (h.subject_nonempty hwf)

theorem replace_tail_liesIn (h : Parts t id subject tail) (hwf : t.WellFormed enabled)
    (text : String) : (Edit.replace tail text).LiesIn (t.range id) := by
  have hsubject := h.subject_inside hwf
  have hstart := h.start_eq
  have hne := h.subject_nonempty hwf
  refine ⟨⟨by simp [Edit.replace], h.start_lt_stop⟩, ?_, h.stop_le⟩
  change (t.range id).start ≤ tail.start
  omega

theorem insertBefore_liesIn (h : Parts t id subject tail) (hwf : t.WellFormed enabled)
    (text : String) : (Edit.insertBefore (t.range subject) text).LiesIn (t.range subject) :=
  ⟨⟨by simp [Edit.insertBefore], h.subject_nonempty hwf⟩, Nat.le_refl _, Nat.le_refl _⟩

theorem arguments_behind (h : Parts t id subject tail) (hwf : t.WellFormed enabled) {c : Nat}
    (hc : c ∈ t.arguments id) (hne : (t.range c).start < (t.range c).stop) :
    tail.stop ≤ (t.range c).start := by
  obtain ⟨-, s, hs, hstop⟩ := Tree.tail?_eq_some h.tail h.receiver
  rw [hstop]
  exact hwf.arguments_behind id s hs c hc (Tree.located_of_nonempty hne)

end Parts

/-- The call that makes a block a value stands in it, before all else. -/
theorem constructor_place (hwf : t.WellFormed enabled) {subject call : Nat}
    (h : constructor? t subject = some call) :
    (∃ rest, t.childIds subject = call :: rest) ∧
      (t.range call).start < (t.range call).stop ∧
      (t.range subject).start ≤ (t.range call).start ∧
      (t.range call).stop ≤ (t.range subject).stop := by
  obtain ⟨hkind, hcall, -⟩ := constructor?_eq_some h
  have hrest := Tree.childIds_of_first hcall
  have hne := Span.start_lt_stop (hwf.block_calls subject hkind call hcall)
  obtain ⟨rest, hids⟩ := hrest
  exact ⟨⟨rest, hids⟩, hne, hwf.child_inside (by rw [hids]; simp) hne⟩

/-- The first edit of a converted call with a receiver, which lies in the receiver. -/
theorem replace_constructor_liesIn (hwf : t.WellFormed enabled) {subject call : Nat}
    (h : constructor? t subject = some call) (text : String) :
    (Edit.replace (t.range call) text).LiesIn (t.range subject) := by
  obtain ⟨-, hne, hstart, hstop⟩ := constructor_place hwf h
  exact ⟨⟨by simp [Edit.replace], hne⟩, hstart, hstop⟩

/-- A match either replaces its call, or it changes something in the receiver and replaces what
stands between the receiver and the arguments. -/
theorem edits_cases (ht : t.Built) (hwf : t.WellFormed enabled) (h : m.Stands t id) :
    (∃ text, m.edits t = [.replace (t.range id) text]) ∨
      ∃ subject tail first text, Parts t id subject tail ∧ first.LiesIn (t.range subject) ∧
        first.range.Fits t.source ∧ m.edits t = [first, .replace tail text] := by
  cases m with
  | beClose node expected delta =>
    cases h
    exact Or.inl ⟨_, rfl⟩
  | stub node object tail messages =>
    obtain ⟨rfl, hparts⟩ := h
    exact Or.inr ⟨object, tail, _, _, hparts, hparts.insertBefore_liesIn hwf "allow(",
      Tree.range_fits ht object, rfl⟩
  | should node subject tail negative =>
    obtain ⟨rfl, hparts⟩ := h
    cases hc : constructor? t subject with
    | none =>
      refine Or.inr ⟨subject, tail, _, ")." ++ (if negative then "not_to" else "to"), hparts,
        hparts.insertBefore_liesIn hwf "expect(", Tree.range_fits ht subject, ?_⟩
      simp only [edits, shouldEdits, hc]
    | some call =>
      refine Or.inr ⟨subject, tail, _, "." ++ (if negative then "not_to" else "to"), hparts,
        replace_constructor_liesIn hwf hc "expect", Tree.range_fits ht call, ?_⟩
      simp only [edits, shouldEdits, hc]

theorem edits_liesIn (ht : t.Built) (hwf : t.WellFormed enabled) (h : at? t enabled id = some m) :
    ∀ f ∈ m.edits t, f.LiesIn (t.range id) := by
  intro f hf
  rcases edits_cases ht hwf (at?_stands h) with
    ⟨text, hedits⟩ | ⟨subject, tail, first, text, hparts, hfirst, -, hedits⟩
  · rw [hedits, List.mem_singleton] at hf
    rw [hf]
    exact ⟨⟨by simp [Edit.replace], Span.start_lt_stop (hwf.detected id m h)⟩, Nat.le_refl _,
      Nat.le_refl _⟩
  · obtain ⟨hstart, hstop⟩ := hparts.subject_inside hwf
    rw [hedits, List.mem_cons, List.mem_singleton] at hf
    rcases hf with rfl | rfl
    · exact hfirst.mono hstart hstop
    · exact hparts.replace_tail_liesIn hwf text

theorem edits_sound (ht : t.Built) (hwf : t.WellFormed enabled) (h : m.Stands t id) :
    Revision.Sound t.source (m.edits t) := by
  rcases edits_cases ht hwf h with
    ⟨text, hedits⟩ | ⟨subject, tail, first, text, hparts, hfirst, hfits, hedits⟩
  · rw [hedits]
    refine ⟨fun e he => ?_, List.pairwise_singleton _ _⟩
    rw [List.mem_singleton.mp he]
    exact Tree.range_fits ht id
  · rw [hedits]
    constructor
    · intro e he
      rw [List.mem_cons, List.mem_singleton] at he
      rcases he with rfl | rfl
      · exact hfits
      · exact hparts.fits ht
    · have hclear : first.ClearOf tail :=
        hfirst.clearOf (Or.inl (Nat.le_of_eq hparts.start_eq.symm))
      have htail : (Edit.replace tail text).LiesIn tail :=
        ⟨⟨by simp [Edit.replace], hparts.start_lt_stop⟩, Nat.le_refl _, Nat.le_refl _⟩
      exact List.pairwise_pair.mpr (hclear.apart htail)

/-- Every match replaces something. -/
theorem exists_replace (ht : t.Built) (hwf : t.WellFormed enabled) (h : at? t enabled id = some m) :
    ∃ f ∈ m.edits t, f.side = .replace := by
  rcases edits_cases ht hwf (at?_stands h) with
    ⟨text, hedits⟩ | ⟨subject, tail, first, text, -, -, -, hedits⟩
  · exact ⟨_, by rw [hedits]; exact List.mem_singleton_self _, rfl⟩
  · exact ⟨.replace tail text, by rw [hedits]; simp, rfl⟩

end Match

/-! ## Subtrees without effect -/

namespace Revision

variable {t : Tree} {enabled : List Rule} {facts : Facts} {r : Revision} {id : Nat}

end Revision
end SpecUpgrade
