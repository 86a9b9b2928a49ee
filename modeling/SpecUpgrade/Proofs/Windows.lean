import SpecUpgrade.Proofs.Rendering

/-!
Windows on a rendered text. What comes out between two offsets depends only on the edits whose
ranges reach in there, so the text of a part of the source can be found from the edits in that part
alone.
-/

namespace SpecUpgrade

/-- The edit stands before a range that is not empty or replaces it. -/
structure Edit.Leading (e : Edit) : Prop where
  side : e.side ≠ .after
  start_lt_stop : e.range.start < e.range.stop

/-- The edit is a leading one whose range lies in the span. -/
structure Edit.LiesIn (e : Edit) (span : Span) : Prop extends e.Leading where
  start_le : span.start ≤ e.range.start
  stop_le : e.range.stop ≤ span.stop

/-- The range of the edit has an offset between the two. -/
def Edit.reaches (start stop : Nat) (e : Edit) : Bool :=
  decide (e.range.start < stop) && decide (start < e.range.stop)

namespace Edit

theorem reaches_iff (start stop : Nat) (e : Edit) :
    e.reaches start stop = true ↔ e.range.start < stop ∧ start < e.range.stop := by
  rw [reaches, Bool.and_eq_true, decide_eq_true_eq, decide_eq_true_eq]

theorem LiesIn.mono {e : Edit} {inner outer : Span} (h : e.LiesIn inner)
    (hstart : outer.start ≤ inner.start) (hstop : inner.stop ≤ outer.stop) : e.LiesIn outer :=
  ⟨h.toLeading, Nat.le_trans hstart h.start_le, Nat.le_trans h.stop_le hstop⟩

theorem LiesIn.span_nonempty {e : Edit} {span : Span} (h : e.LiesIn span) :
    span.start < span.stop :=
  Nat.lt_of_le_of_lt h.start_le (Nat.lt_of_lt_of_le h.start_lt_stop h.stop_le)

theorem Leading.position_eq {e : Edit} (h : e.Leading) : e.position = e.range.start := by
  unfold position
  cases hs : e.side with
  | after => exact absurd hs h.side
  | before => rfl
  | replace => rfl

/-- A leading edit modifies something within its range. -/
theorem Leading.region_stop_le {e : Edit} (h : e.Leading) : e.region.stop ≤ e.range.stop := by
  unfold region
  cases hs : e.side with
  | after => exact absurd hs h.side
  | before => exact e.range.start_le_stop
  | replace => exact Nat.le_refl _

theorem Leading.region_start {e : Edit} (h : e.Leading) : e.region.start = e.range.start := by
  rw [← position_eq_region_start, h.position_eq]

end Edit

namespace Revision

/-! ## What reaches into a window -/

private theorem filter_reaching {edits : List Edit} {start stop : Nat} {p : Edit → Bool}
    (h : ∀ e ∈ edits, p e = true → e.reaches start stop = true) :
    edits.filter p = (edits.filter (Edit.reaches start stop)).filter p := by
  rw [List.filter_filter]
  apply List.filter_congr
  intro e he
  cases hp : p e with
  | false => rfl
  | true => rw [h e he hp, Bool.and_self]

private theorem piecesAt_reaching {length start stop offset : Nat} {edits : List Edit}
    (hedits : ∀ e ∈ edits, e.Leading) (hstart : start ≤ offset) (hstop : offset < stop) :
    piecesAt length edits offset =
      piecesAt length (edits.filter (Edit.reaches start stop)) offset := by
  have hout : comingOut edits offset =
      comingOut (edits.filter (Edit.reaches start stop)) offset := by
    unfold comingOut closingAt openingAt replacingAt
    congr 1
    congr 1
    all_goals
      congr 1
      apply filter_reaching
      intro e he hp
      rw [Bool.and_eq_true, beq_iff_eq, beq_iff_eq] at hp
      have hlead := hedits e he
      have hlt := hlead.start_lt_stop
      rw [Edit.reaches_iff]
    · exact absurd hp.1 hlead.side
    · omega
    · omega
  have hcovered : edits.any (·.covers offset) =
      (edits.filter (Edit.reaches start stop)).any (·.covers offset) := by
    rw [List.any_filter, Bool.eq_iff_iff, List.any_eq_true, List.any_eq_true]
    refine exists_congr fun e => and_congr_right fun he => ?_
    rw [Bool.and_eq_true, Edit.reaches_iff]
    refine ⟨fun hc => ⟨?_, hc⟩, fun hc => hc.2⟩
    obtain ⟨hside, hc⟩ := (e.covers_iff offset).mp hc
    rw [Edit.region_of_replace hside] at hc
    omega
  rw [piecesAt, piecesAt, hout, kept, kept, hcovered]

/-- What comes out in a window depends only on the edits that reach into it. -/
theorem piecesIn_congr {length start stop : Nat} {xs ys : List Edit}
    (hxs : ∀ e ∈ xs, e.Leading) (hys : ∀ e ∈ ys, e.Leading)
    (h : xs.filter (Edit.reaches start stop) = ys.filter (Edit.reaches start stop)) :
    piecesIn length xs start stop = piecesIn length ys start stop := by
  apply List.flatMap_congr
  intro offset hoffset
  have := List.mem_range'_1.mp hoffset
  have hstart : start ≤ offset := by omega
  have hstop : offset < stop := by omega
  rw [piecesAt_reaching hxs hstart hstop, h, ← piecesAt_reaching hys hstart hstop]

/-- The text that comes out in a window. -/
def Renders (source : String) (edits : List Edit) (start stop : Nat) (text : String) : Prop :=
  (piecesIn (Text.byteLength source.toList) edits start stop).flatMap
    (Piece.bytes (Utf8.encode source)) = Utf8.encode text

variable {source : String} {edits : List Edit}

theorem Renders.append {a b c : Nat} {front back : String} (hab : a ≤ b) (hbc : b ≤ c)
    (hfront : Renders source edits a b front) (hback : Renders source edits b c back) :
    Renders source edits a c (front ++ back) := by
  rw [Renders, piecesIn_append _ _ hab hbc, List.flatMap_append, hfront, hback, Utf8.encode_append]

theorem Renders.congr {a b : Nat} {text : String} {others : List Edit}
    (h : Renders source edits a b text) (hedits : ∀ e ∈ edits, e.Leading)
    (hothers : ∀ e ∈ others, e.Leading)
    (hsame : others.filter (Edit.reaches a b) = edits.filter (Edit.reaches a b)) :
    Renders source others a b text := by
  rw [Renders, piecesIn_congr hothers hedits hsame]
  exact h

end Revision
end SpecUpgrade
