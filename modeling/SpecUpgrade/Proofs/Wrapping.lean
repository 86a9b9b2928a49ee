import Mathlib.Data.List.Nodup
import SpecUpgrade.Proofs.Brackets

/-!
Wraps around ranges of a text. Ranges that hold something and are nested or apart can be wrapped in
any order: in the text each stands between its own two texts, and the texts of outer ranges stand
around those of inner ones. An empty range alone is not surrounded by its wrap.
-/

namespace SpecUpgrade

namespace Bracket

/-- The source between two offsets with brackets around their spans. The first bracket stands around
those inside it, and the others come behind. -/
def enclosed (source : String) (bs : List Bracket) (start stop : Nat) : String :=
  (Nest.ofList bs).text source start stop

/-- The spans fit the source and hold something, no two are the same, and any two are nested or
apart. -/
structure Wrappable (source : String) (bs : List Bracket) : Prop where
  fits : ∀ b ∈ bs, b.span.Fits source
  nonempty : ∀ b ∈ bs, b.span.start < b.span.stop
  distinct : (bs.map (·.span)).Nodup
  nested : ∀ b ∈ bs, ∀ c ∈ bs, b.span.contains c.span = true ∨ c.span.contains b.span = true ∨
    b.span.Beside c.span

namespace Wrappable
variable {source : String} {bs order : List Bracket}

theorem perm (h : Wrappable source bs) (horder : order.Perm bs) : Wrappable source order where
  fits b hb := h.fits b (horder.mem_iff.mp hb)
  nonempty b hb := h.nonempty b (horder.mem_iff.mp hb)
  distinct := (horder.map _).nodup_iff.mpr h.distinct
  nested b hb c hc := h.nested b (horder.mem_iff.mp hb) c (horder.mem_iff.mp hc)

theorem pairwise_ne (h : Wrappable source bs) : bs.Pairwise fun b c => b.span ≠ c.span :=
  List.pairwise_map.mp h.distinct

theorem laminar (h : Wrappable source bs) : Laminar bs (Text.byteLength source.toList) where
  bounds b hb := ⟨h.nonempty b hb, (h.fits b hb).stop_le⟩
  distinct := h.pairwise_ne.imp fun hne heq => absurd heq hne
  nested := h.nested

end Wrappable

/-- Of two brackets that start at one offset the first opens first, or both end at one offset. -/
def opensFirst (b c : Bracket) : Bool := decide (c.span.stop ≤ b.span.stop)

theorem opensFirst_trans (b c d : Bracket) (hbc : b.opensFirst c) (hcd : c.opensFirst d) :
    b.opensFirst d := by
  simp only [opensFirst, decide_eq_true_eq] at *
  omega

theorem opensFirst_total (b c : Bracket) : b.opensFirst c || c.opensFirst b := by
  simp only [opensFirst, Bool.or_eq_true, decide_eq_true_eq]
  omega

/-- Brackets that start at one offset open from the outside. -/
theorem map_openingAt {bs : List Bracket} {n : Nest} {stop : Nat} (hperm : n.brackets.Perm bs)
    (hn : n.Proper 0 stop) (hne : bs.Pairwise fun b c => b.span ≠ c.span) (offset : Nat) :
    (Revision.openingAt (bs.flatMap (edits (·.span))) offset).map (fun e => (e.position, e.text)) =
      (n.brackets.filter (·.span.start == offset)).map fun b => (offset, b.opening) := by
  let starting := bs.filter (·.span.start == offset)
  let sorted := starting.mergeSort opensFirst
  have hsort : Revision.openingAt (bs.flatMap (edits (·.span))) offset =
      sorted.map fun b => .insertBefore b.span b.opening := by
    rw [Revision.openingAt, filter_opening]
    symm
    exact List.map_mergeSort fun b _ c _ => rfl
  have hstarts : ∀ b ∈ sorted, b.span.start = offset := fun b hb => by
    simpa using (List.mem_filter.mp ((List.mergeSort_perm _ _).mem_iff.mp hb)).2
  have hsorted : sorted.Pairwise Around := by
    have hne : sorted.Pairwise fun b c => b.span ≠ c.span :=
      ((List.mergeSort_perm _ _).pairwise_iff fun h => h.symm).mpr (hne.filter _)
    refine ((List.pairwise_mergeSort opensFirst_trans opensFirst_total starting).and
      hne).imp_of_mem fun {b c} hb hc hbc => ?_
    have hb := hstarts b hb
    have hc := hstarts c hc
    refine ⟨by omega, of_decide_eq_true hbc.1, fun hstart hstop => ?_⟩
    exact absurd (Span.eq_of_bounds hstart hstop).symm hbc.2
  have hnested : (n.brackets.filter (·.span.start == offset)).Pairwise Around := by
    refine (hn.pairwise.filter _).imp_of_mem fun {b c} hb hc hbc => ?_
    obtain ⟨hmem, hb⟩ := List.mem_filter.mp hb
    obtain ⟨-, hc⟩ := List.mem_filter.mp hc
    rw [beq_iff_eq] at hb hc
    have := hn.bounds b hmem
    exact hbc.resolve_right (by omega)
  have heq : sorted = n.brackets.filter (·.span.start == offset) :=
    eq_of_around hsorted hnested ((List.mergeSort_perm _ _).trans (hperm.filter _).symm)
  rw [hsort, List.map_map, ← heq]
  refine List.map_congr_left fun b hb => ?_
  rw [← hstarts b hb]
  rfl

namespace Wrappable
variable {source : String} {bs order : List Bracket}

/-- The edits come out in one order only, whatever order they are submitted in. -/
theorem render_eq (h : Wrappable source bs) (horder : order.Perm bs) :
    Revision.render ⟨source, order.flatMap (edits (·.span))⟩ =
      enclosed source (arranged bs) 0 (Text.byteLength source.toList) := by
  have hnest := h.laminar.proper
  have hne := (h.perm horder).pairwise_ne
  have hperm : (Nest.ofList (arranged bs)).brackets.Perm order := by
    rw [h.laminar.brackets_ofList]
    exact (arranged_perm bs).trans horder.symm
  have hfits := (h.perm horder).fits
  exact render_eq_text hfits hfits hperm hnest (hne.imp fun hne heq => absurd heq hne)
    (map_openingAt hperm hnest hne)

/-- Between the two texts of a bracket stands its span with the brackets inside it. -/
theorem exists_split (h : Wrappable source bs) {b : Bracket} (hb : b ∈ bs) :
    ∃ front back, enclosed source (arranged bs) 0 (Text.byteLength source.toList) = front ++
      (b.opening ++ enclosed source (arranged (b.inside bs)) b.span.start b.span.stop ++
        b.closing) ++ back := by
  have hmem : b ∈ (Nest.ofList (arranged bs)).brackets := by
    rw [h.laminar.brackets_ofList]
    exact (arranged_perm bs).mem_iff.mpr hb
  obtain ⟨front, inner, back, htext, hinner, hinside⟩ :=
    Nest.exists_split source h.laminar.proper hmem
  rw [h.laminar.brackets_ofList, inside_arranged] at hinside
  refine ⟨front, back, ?_⟩
  rw [enclosed, htext, enclosed, ← hinside, hinner.ofList_brackets]

end Wrappable
end Bracket

namespace Revision

/-- Wraps ranges one after the other, up to the first that is refused. -/
def wrapEach (r : Revision) (bs : List Bracket) : Except Refusal Revision :=
  bs.foldlM (fun r b => r.wrap b.span b.opening b.closing) r

section Accepting
variable {source : String} {accepted : List Edit}

/-- Among insertions a wrap is accepted where its range fits the source. -/
theorem wrap_eq_ok (haccepted : ∀ e ∈ accepted, e.range.Fits source ∧ e.side ≠ .replace)
    {range : Span} (hrange : range.Fits source) (before after : String) :
    wrap ⟨source, accepted⟩ range before after =
      .ok ⟨source, accepted ++ Edit.surround range before after⟩ := by
  refine (submitAll_eq_ok_iff (r := ⟨source, accepted⟩) (sound_of_insertions haccepted) _ _).mpr
    ⟨rfl, sound_of_insertions fun e he => (List.mem_append.mp he).elim (haccepted e) fun he => ?_⟩
  rw [Edit.surround, List.mem_cons, List.mem_singleton] at he
  rcases he with rfl | rfl
  · exact ⟨hrange, by simp [Edit.insertBefore]⟩
  · exact ⟨hrange, by simp [Edit.insertAfter]⟩

theorem wrapEach_eq_ok {bs : List Bracket}
    (haccepted : ∀ e ∈ accepted, e.range.Fits source ∧ e.side ≠ .replace)
    (hbs : ∀ b ∈ bs, b.span.Fits source) :
    wrapEach ⟨source, accepted⟩ bs =
      .ok ⟨source, accepted ++ bs.flatMap (Bracket.edits (·.span))⟩ := by
  induction bs generalizing accepted with
  | nil => simp [wrapEach, pure, Except.pure]
  | cons b bs ih =>
    have hb := hbs b (by simp)
    have hsingle : ∀ c ∈ [b], c.span.Fits source := by simpa using hb
    have hboth : ∀ e ∈ accepted ++ b.edits (·.span), e.range.Fits source ∧ e.side ≠ .replace :=
      fun e he => (List.mem_append.mp he).elim (haccepted e) fun he =>
        Bracket.insertion_of_mem_edits hsingle hsingle (by simpa using he)
    rw [wrapEach, List.foldlM_cons, wrap_eq_ok haccepted hb]
    change wrapEach ⟨source, accepted ++ b.edits (·.span)⟩ bs = _
    rw [ih hboth fun c hc => hbs c (List.mem_cons_of_mem b hc), List.flatMap_cons,
      List.append_assoc]

end Accepting

open SpecUpgrade.Bracket in
/-- Ranges of a source that hold something, of which no two are the same and any two are nested or
apart, can be wrapped in any order, and the text is always the same: each range stands between its own
two texts, and in it stand the wraps of exactly those ranges that lie within. -/
theorem wrapEach_encloses {source : String} {ws order : List Bracket} (hws : Wrappable source ws)
    (horder : order.Perm ws) :
    ∃ r, (ofSource source).wrapEach order = .ok r ∧
      r.render = enclosed source (arranged ws) 0 (Text.byteLength source.toList) ∧
      ∀ w ∈ ws, ∃ front back, r.render = front ++ (w.opening ++
        enclosed source (arranged (w.inside ws)) w.span.start w.span.stop ++ w.closing) ++ back := by
  have hrender := hws.render_eq horder
  refine ⟨⟨source, [] ++ order.flatMap (Bracket.edits (·.span))⟩, ?_, hrender, fun w hw => ?_⟩
  · exact wrapEach_eq_ok (by simp) fun w hw => hws.fits w (horder.mem_iff.mp hw)
  · obtain ⟨front, back, hsplit⟩ := hws.exists_split hw
    exact ⟨front, back, hrender.trans hsplit⟩

/-- Two wraps with one start and two with one end, of which two touch, inner ones first. -/
theorem wrapEach_encloses_touching :
    let outer : Bracket := ⟨⟨0, 7, by decide⟩, 0, "o(", ")"⟩
    let first : Bracket := ⟨⟨0, 3, by decide⟩, 0, "i(", ")"⟩
    let second : Bracket := ⟨⟨3, 7, by decide⟩, 0, "<", ">"⟩
    let last : Bracket := ⟨⟨4, 7, by decide⟩, 0, "[", "]"⟩
    Bracket.Wrappable "foo.bar" [outer, first, second, last] ∧
      ∃ r, (ofSource "foo.bar").wrapEach [last, first, second, outer] = .ok r ∧
        r.render = "o(i(foo)<.[bar]>)" := by
  intro outer first second last
  have hws : Bracket.Wrappable "foo.bar" [outer, first, second, last] :=
    ⟨by decide, by decide, by decide, by decide⟩
  have horder : [last, first, second, outer].Perm [outer, first, second, last] := by decide
  obtain ⟨r, hr, hrender, -⟩ := wrapEach_encloses hws horder
  have harranged : Bracket.arranged [outer, first, second, last] = [outer, first, second, last] :=
    List.mergeSort_of_pairwise (by decide)
  rw [harranged] at hrender
  refine ⟨hws, r, hr, hrender.trans ?_⟩
  simp [Bracket.enclosed, Nest.ofList, Nest.text, Bracket.inside, Bracket.outside, Bracket.Around,
    Text.excerpt, Text.slice, Text.takeTo, Text.dropTo, Text.byteLength, Char.utf8Size, outer, first,
    second, last]

/-! ## One wrap -/

section Single
variable {source : String} {range : Span}

theorem render_surround_of_nonempty (h : range.Fits source) (hne : range.start < range.stop)
    (before after : String) :
    render ⟨source, Edit.surround range before after⟩ = Text.excerpt source 0 range.start ++
      (before ++ Text.excerpt source range.start range.stop ++ after) ++
        Text.excerpt source range.stop (Text.byteLength source.toList) := by
  have hws : Bracket.Wrappable source [⟨range, 0, before, after⟩] :=
    ⟨by simpa using h, by simpa using hne, by simp, by simp [Span.contains]⟩
  have hrender := hws.render_eq (.refl _)
  rw [Bracket.arranged, List.mergeSort_singleton, Bracket.enclosed] at hrender
  simpa [Nest.ofList, Nest.text, Bracket.inside, Bracket.outside, Bracket.edits, Edit.surround]
    using hrender

theorem placed_surround_of_empty (hempty : range.start = range.stop) (before after : String) :
    placed (Edit.surround range before after) =
      [.insertAfter range after, .insertBefore range before] := by
  have hsorted : [Edit.insertAfter range after, .insertBefore range before].Pairwise
      fun e f => e.comesBefore f := by
    rw [List.pairwise_pair]
    exact Edit.after_comesBefore_before.mpr (Nat.le_of_eq hempty.symm)
  refine List.Perm.eq_of_pairwise (fun e f he hf hef hfe => ?_)
    (List.pairwise_mergeSort Edit.comesBefore_trans Edit.comesBefore_total _) hsorted
    ((placed_perm _).trans (.swap _ _ _))
  have hside := (Edit.anchor_eq hef hfe).2
  have he := (placed_perm _).mem_iff.mp he
  rw [Edit.surround, List.mem_cons, List.mem_singleton] at he
  rw [List.mem_cons, List.mem_singleton] at hf
  rcases he with rfl | rfl <;> rcases hf with rfl | rfl
  · cases hside
  · rfl
  · rfl
  · cases hside

/-- What goes after a range comes out before what goes in front of one at the same offset, so around
an empty range the two texts come in the wrong order. -/
theorem render_surround_of_empty (h : range.Fits source) (hempty : range.start = range.stop)
    (before after : String) :
    render ⟨source, Edit.surround range before after⟩ =
      Text.excerpt source 0 range.start ++ (after ++ before) ++
        Text.excerpt source range.stop (Text.byteLength source.toList) := by
  have hpass : renderFrom source.toList 0 (placed (Edit.surround range before after)) =
      Text.slice source.toList 0 range.stop ++ after.toList ++
        (Text.slice source.toList range.stop range.start ++ before.toList ++
          Text.dropTo range.start source.toList) := by
    rw [placed_surround_of_empty hempty, renderFrom_cons (Nat.zero_le _)]
    exact congrArg _ (renderFrom_cons (Nat.le_of_eq hempty.symm))
  refine (congrArg String.ofList hpass).trans (String.toList_inj.mp ?_)
  rw [hempty, ← Text.slice_to_end h.stop_boundary]
  simp [Text.excerpt, Text.slice, Text.takeTo]

end Single

/-- A wrap on a fresh revision is accepted where its range fits the source. A range that holds
something then stands between the two texts. An empty one does not, since the second text comes first:
the texts surround the range only if that cannot be told. -/
theorem wrap_surrounds_iff {source : String} {range : Span} (h : range.Fits source)
    (before after : String) :
    let front := Text.excerpt source 0 range.start
    let middle := Text.excerpt source range.start range.stop
    let back := Text.excerpt source range.stop (Text.byteLength source.toList)
    ∃ r, (ofSource source).wrap range before after = .ok r ∧
      r.render = (if range.isEmpty then front ++ (after ++ before) ++ back
        else front ++ (before ++ middle ++ after) ++ back) ∧
      (r.render = front ++ (before ++ middle ++ after) ++ back ↔
        range.isEmpty = false ∨ before ++ after = after ++ before) := by
  intro front middle back
  refine ⟨⟨source, [] ++ Edit.surround range before after⟩,
    wrap_eq_ok (by simp) h before after, ?_⟩
  rw [List.nil_append]
  cases hempty : range.isEmpty with
  | false =>
    have hne : range.start < range.stop := by
      have hle := range.start_le_stop
      simp only [Span.isEmpty, beq_eq_false_iff_ne] at hempty
      omega
    rw [render_surround_of_nonempty h hne]
    simp [front, middle, back]
  | true =>
    have hpoint : range.start = range.stop := by simpa [Span.isEmpty] using hempty
    have hmiddle : middle = "" := by
      simp [middle, hpoint, Text.excerpt, Text.slice, Text.takeTo]
    rw [render_surround_of_empty h hpoint, hmiddle]
    refine ⟨rfl, fun heq => Or.inr ?_, fun hcommute => ?_⟩
    · change front ++ (after ++ before) ++ back = front ++ (before ++ "" ++ after) ++ back at heq
      rw [String.append_empty, String.append_left_inj, String.append_right_inj] at heq
      exact heq.symm
    · rw [String.append_empty, hcommute.resolve_left (by simp)]

/-- A character of two bytes between two texts. -/
theorem wrap_surrounds_iff_wide :
    Span.Fits ⟨1, 3, by decide⟩ "aéb" ∧
      ∃ r, (ofSource "aéb").wrap ⟨1, 3, by decide⟩ "<" ">" = .ok r ∧ r.render = "a<é>b" := by
  have hfits : Span.Fits ⟨1, 3, by decide⟩ "aéb" := by decide
  obtain ⟨r, hr, hrender, -⟩ := wrap_surrounds_iff hfits "<" ">"
  exact ⟨hfits, r, hr, hrender.trans (by decide)⟩

/-- Around nothing the second text comes first. -/
theorem wrap_crossed :
    Span.Fits ⟨1, 1, by decide⟩ "ab" ∧
      ∃ r, (ofSource "ab").wrap ⟨1, 1, by decide⟩ "<" ">" = .ok r ∧ r.render = "a><b" ∧
        r.render ≠ Text.excerpt "ab" 0 1 ++ ("<" ++ Text.excerpt "ab" 1 1 ++ ">") ++
          Text.excerpt "ab" 1 (Text.byteLength "ab".toList) := by
  have hrender : render ⟨"ab", Edit.surround ⟨1, 1, by decide⟩ "<" ">"⟩ = "a><b" :=
    (render_surround_of_empty (by decide) rfl "<" ">").trans (by decide)
  refine ⟨by decide, ⟨"ab", Edit.surround ⟨1, 1, by decide⟩ "<" ">"⟩, rfl, hrender, ?_⟩
  rw [hrender]
  decide

end Revision
end SpecUpgrade
