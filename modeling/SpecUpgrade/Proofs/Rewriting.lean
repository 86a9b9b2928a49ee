import Mathlib
import SpecUpgrade.Proofs.Acceptance

/-!
Conversion as a rewriting of the source from the top down. The text of a node is that of its source
with the texts of its children put in, unless the node is a call that is converted: then the call is
written anew around the texts of its parts. In a well-formed tree the accepted edits, rendered all
at once, give this text.
-/

namespace SpecUpgrade.Tree

/-! ## The rewriting -/

variable {t : Tree} {enabled : List Rule} {facts : Facts} {text : Nat → String}

/-- The edits of a converted call: the first goes into its receiver and so do the inner ones, the
outer ones go into its arguments. -/
structure Spread (t : Tree) (id subject : Nat) (tail : Span) (first : Edit)
    (inner outer : List Edit) : Prop where
  parts : Match.Parts t id subject tail
  first_in : first.LiesIn (t.range subject)
  inner_in : ∀ e ∈ inner, e.LiesIn (t.range subject)
  outer_in : ∀ e ∈ outer, ∃ c ∈ t.arguments id, e.LiesIn (t.range c)

namespace Spread

variable {id subject : Nat} {tail : Span} {first : Edit} {inner outer : List Edit}

def edits (first : Edit) (tail : Span) (name : String) (inner outer : List Edit) : List Edit :=
  [first, .replace tail name] ++ inner ++ outer

theorem mem_front {name : String} {e : Edit} (h : Spread t id subject tail first inner outer)
    (he : e ∈ [first, Edit.replace tail name] ++ inner) :
    e.LiesIn (t.range subject) ∨ e = .replace tail name := by
  simp only [List.mem_append, List.mem_cons, List.not_mem_nil, or_false] at he
  rcases he with (rfl | rfl) | he
  · exact Or.inl h.first_in
  · exact Or.inr rfl
  · exact Or.inl (h.inner_in e he)

theorem leading (h : Spread t id subject tail first inner outer) {name : String} :
    ∀ e ∈ edits first tail name inner outer, e.Leading := by
  intro e he
  rcases List.mem_append.mp he with he | he
  · rcases h.mem_front he with hlies | rfl
    · exact hlies.toLeading
    · exact ⟨by simp [Edit.replace], h.parts.start_lt_stop⟩
  · obtain ⟨c, -, hlies⟩ := h.outer_in e he
    exact hlies.toLeading

/-- Edits in the arguments lie behind the name. -/
theorem behind (h : Spread t id subject tail first inner outer) (hwf : t.WellFormed enabled)
    {e : Edit} (he : e ∈ outer) : tail.stop ≤ e.range.start := by
  obtain ⟨c, hc, hlies⟩ := h.outer_in e he
  exact Nat.le_trans (h.parts.arguments_behind hwf hc hlies.span_nonempty) hlies.start_le

end Spread

end SpecUpgrade.Tree
