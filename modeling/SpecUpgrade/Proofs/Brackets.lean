import SpecUpgrade.Proofs.Rendering

/-!
Pairs of texts around spans of a source. Where the spans are nested or apart the pairs stand in each
other like brackets, whatever order they are given in, and the edits that put them in come out in the
order in which they stand.
-/

namespace SpecUpgrade

/-- The source between two offsets. -/
def Text.excerpt (source : String) (start stop : Nat) : String :=
  String.ofList (slice source.toList start stop)

/-- A span and the two texts around it. Of brackets around one span that of a smaller rank is
inside. -/
structure Bracket where
  span : Span
  rank : Nat
  opening : String
  closing : String
deriving DecidableEq

namespace Bracket

/-- The first bracket stands around the second. -/
def Around (b c : Bracket) : Prop :=
  b.span.start ≤ c.span.start ∧ c.span.stop ≤ b.span.stop ∧
    (c.span.start = b.span.start → c.span.stop = b.span.stop → c.rank < b.rank)

instance (b c : Bracket) : Decidable (b.Around c) := inferInstanceAs (Decidable (_ ∧ _ ∧ _))

theorem Around.asymm {b c : Bracket} (h : b.Around c) : ¬c.Around b := by
  unfold Around at *
  omega

theorem not_around_of_beside {b c : Bracket} (hlt : c.span.start < c.span.stop)
    (h : b.span.Beside c.span) : ¬b.Around c := by
  unfold Span.Beside at h
  unfold Around
  omega

/-- The first bracket stands around the second or ends before it. -/
def Precedes (b c : Bracket) : Prop := b.Around c ∨ b.span.stop ≤ c.span.start

/-- The brackets that the first one stands around. -/
def inside (b : Bracket) (bs : List Bracket) : List Bracket := bs.filter fun c => decide (b.Around c)

def outside (b : Bracket) (bs : List Bracket) : List Bracket :=
  bs.filter fun c => !decide (b.Around c)

variable {b c : Bracket} {bs : List Bracket}

theorem mem_inside : c ∈ b.inside bs ↔ c ∈ bs ∧ b.Around c := by simp [inside]

theorem mem_outside : c ∈ b.outside bs ↔ c ∈ bs ∧ ¬b.Around c := by simp [outside]

theorem inside_append (b : Bracket) (bs cs : List Bracket) :
    b.inside (bs ++ cs) = b.inside bs ++ b.inside cs :=
  List.filter_append _ _

theorem inside_cons (h : ¬b.Around c) : b.inside (c :: bs) = b.inside bs :=
  List.filter_cons_of_neg (by simpa using h)

theorem inside_eq_nil (h : ∀ c ∈ bs, ¬b.Around c) : b.inside bs = [] :=
  List.filter_eq_nil_iff.mpr fun c hc => by simpa using h c hc

theorem inside_eq_self (h : ∀ c ∈ bs, b.Around c) : b.inside bs = bs :=
  List.filter_eq_self.mpr fun c hc => decide_eq_true (h c hc)

theorem outside_append (b : Bracket) (bs cs : List Bracket) :
    b.outside (bs ++ cs) = b.outside bs ++ b.outside cs :=
  List.filter_append _ _

theorem outside_eq_nil (h : ∀ c ∈ bs, b.Around c) : b.outside bs = [] :=
  List.filter_eq_nil_iff.mpr fun c hc => by simpa using h c hc

theorem outside_eq_self (h : ∀ c ∈ bs, ¬b.Around c) : b.outside bs = bs :=
  List.filter_eq_self.mpr fun c hc => by simpa using h c hc

/-- Of the brackets behind one, in order, those inside come first. -/
theorem inside_append_outside (hlt : ∀ c ∈ bs, c.span.start < c.span.stop)
    (hb : ∀ c ∈ bs, b.Precedes c) (h : bs.Pairwise Precedes) : b.inside bs ++ b.outside bs = bs := by
  induction bs with
  | nil => rfl
  | cons c bs ih =>
    obtain ⟨hc, hbs⟩ := List.pairwise_cons.mp h
    have hlater := ih (fun d hd => hlt d (List.mem_cons_of_mem c hd))
      (fun d hd => hb d (List.mem_cons_of_mem c hd)) hbs
    rcases hb c List.mem_cons_self with haround | hbehind
    · rw [inside, outside] at *
      rw [List.filter_cons_of_pos (by simpa using haround),
        List.filter_cons_of_neg (by simpa using haround), List.cons_append, hlater]
    · -- all that comes later is behind as well
      have hnone : ∀ d ∈ c :: bs, ¬b.Around d := by
        intro d hd
        refine not_around_of_beside (hlt d hd) (.inl ?_)
        rcases List.mem_cons.mp hd with rfl | hd
        · exact hbehind
        · have hstart : c.span.start ≤ d.span.start := by
            have hle := c.span.start_le_stop
            rcases hc d hd with haround | hapart
            · exact haround.1
            · omega
          omega
      rw [inside_eq_nil hnone, outside_eq_self hnone, List.nil_append]

end Bracket

open SpecUpgrade.Bracket

/-- Brackets beside each other, each with those inside it. -/
inductive Nest where
  | none
  | cons (b : Bracket) (inner rest : Nest)

namespace Nest

def brackets : Nest → List Bracket
  | none => []
  | cons b inner rest => b :: (inner.brackets ++ rest.brackets)

/-- The source between two offsets with the texts of the brackets around their spans. -/
def text (source : String) : Nest → Nat → Nat → String
  | none, start, stop => Text.excerpt source start stop
  | cons b inner rest, start, stop =>
    Text.excerpt source start b.span.start ++
      (b.opening ++ inner.text source b.span.start b.span.stop ++ b.closing) ++
        rest.text source b.span.stop stop

/-- Each bracket has something between the offsets in it that is behind what those before it have in
them, and stands around those inside it. -/
def Proper : Nest → Nat → Nat → Prop
  | none, start, stop => start ≤ stop
  | cons b inner rest, start, stop =>
    start ≤ b.span.start ∧ b.span.start < b.span.stop ∧
      (∀ c ∈ inner.brackets, b.Around c) ∧ inner.Proper b.span.start b.span.stop ∧
      rest.Proper b.span.stop stop

def ofList : List Bracket → Nest
  | [] => none
  | b :: bs => cons b (ofList (b.inside bs)) (ofList (b.outside bs))
termination_by bs => bs.length
decreasing_by
  all_goals exact Nat.lt_succ_of_le (List.length_filter_le _ _)

theorem brackets_ofList {bs : List Bracket} (hlt : ∀ b ∈ bs, b.span.start < b.span.stop)
    (h : bs.Pairwise Precedes) : (ofList bs).brackets = bs := by
  fun_induction ofList bs with
  | case1 => rfl
  | case2 b bs ihInside ihOutside =>
    obtain ⟨hb, hbs⟩ := List.pairwise_cons.mp h
    have hlater : ∀ c ∈ bs, c.span.start < c.span.stop := fun c hc =>
      hlt c (List.mem_cons_of_mem b hc)
    rw [brackets, ihInside (fun c hc => hlater c (mem_inside.mp hc).1) (hbs.filter _),
      ihOutside (fun c hc => hlater c (mem_outside.mp hc).1) (hbs.filter _),
      inside_append_outside hlater hb hbs]

theorem proper_ofList {bs : List Bracket} {start stop : Nat} (hle : start ≤ stop)
    (hbounds : ∀ b ∈ bs, start ≤ b.span.start ∧ b.span.start < b.span.stop ∧ b.span.stop ≤ stop)
    (h : bs.Pairwise Precedes) : (ofList bs).Proper start stop := by
  fun_induction ofList bs generalizing start stop with
  | case1 => exact hle
  | case2 b bs ihInside ihOutside =>
    obtain ⟨hb, hbs⟩ := List.pairwise_cons.mp h
    obtain ⟨hstart, hlt, hstop⟩ := hbounds b List.mem_cons_self
    have hlater : ∀ c ∈ bs, start ≤ c.span.start ∧ c.span.start < c.span.stop ∧
        c.span.stop ≤ stop := fun c hc => hbounds c (List.mem_cons_of_mem b hc)
    have hinner : (ofList (b.inside bs)).brackets = b.inside bs :=
      brackets_ofList (fun c hc => (hlater c (mem_inside.mp hc).1).2.1) (hbs.filter _)
    refine ⟨hstart, hlt, fun c hc => (mem_inside.mp (hinner ▸ hc)).2,
      ihInside (Nat.le_of_lt hlt) (fun c hc => ?_) (hbs.filter _), ihOutside hstop (fun c hc => ?_)
        (hbs.filter _)⟩
    · obtain ⟨hmem, haround⟩ := mem_inside.mp hc
      exact ⟨haround.1, (hlater c hmem).2.1, haround.2.1⟩
    · obtain ⟨hmem, hnot⟩ := mem_outside.mp hc
      exact ⟨(hb c hmem).resolve_left hnot, (hlater c hmem).2⟩

namespace Proper

theorem le {n : Nest} {start stop : Nat} (h : n.Proper start stop) : start ≤ stop := by
  induction n generalizing start with
  | none => exact h
  | cons b inner rest _ ih =>
    obtain ⟨hstart, hlt, -, -, hrest⟩ := h
    have := ih hrest
    omega

theorem bounds {n : Nest} {start stop : Nat} (h : n.Proper start stop) :
    ∀ b ∈ n.brackets, start ≤ b.span.start ∧ b.span.start < b.span.stop ∧ b.span.stop ≤ stop := by
  induction n generalizing start stop with
  | none => simp [brackets]
  | cons b inner rest ihInner ihRest =>
    obtain ⟨hstart, hlt, -, hinner, hrest⟩ := h
    have hle := hrest.le
    intro c hc
    rw [brackets, List.mem_cons, List.mem_append] at hc
    rcases hc with rfl | hc | hc
    · exact ⟨hstart, hlt, hle⟩
    · have := ihInner hinner c hc
      omega
    · have := ihRest hrest c hc
      omega

/-- No bracket stands around one that comes behind another around it. -/
theorem not_around {b c : Bracket} {rest : Nest} {start stop : Nat} (h : rest.Proper start stop)
    (hb : b.span.stop ≤ start) (hc : c ∈ rest.brackets) : ¬b.Around c := by
  have hbounds := h.bounds c hc
  exact not_around_of_beside hbounds.2.1 (.inl (Nat.le_trans hb hbounds.1))

theorem pairwise {n : Nest} {start stop : Nat} (h : n.Proper start stop) :
    n.brackets.Pairwise Precedes := by
  induction n generalizing start stop with
  | none => exact List.Pairwise.nil
  | cons b inner rest ihInner ihRest =>
    obtain ⟨-, -, haround, hinner, hrest⟩ := h
    rw [brackets, List.pairwise_cons, List.pairwise_append]
    refine ⟨fun c hc => ?_, ihInner hinner, ihRest hrest, fun c hc d hd => .inr ?_⟩
    · rcases List.mem_append.mp hc with hc | hc
      · exact .inl (haround c hc)
      · exact .inr (hrest.bounds c hc).1
    · have := hinner.bounds c hc
      have := hrest.bounds d hd
      omega

/-- A nest is made again from its brackets. -/
theorem ofList_brackets {n : Nest} {start stop : Nat} (h : n.Proper start stop) :
    ofList n.brackets = n := by
  induction n generalizing start stop with
  | none => rw [brackets, ofList]
  | cons b inner rest ihInner ihRest =>
    obtain ⟨-, -, haround, hinner, hrest⟩ := h
    have hbehind : ∀ c ∈ rest.brackets, ¬b.Around c := fun c => hrest.not_around (Nat.le_refl _)
    rw [brackets, ofList, inside_append, inside_eq_self haround, inside_eq_nil hbehind,
      List.append_nil, outside_append, outside_eq_nil haround, outside_eq_self hbehind,
      List.nil_append, ihInner hinner, ihRest hrest]

end Proper

/-- Between the two texts of a bracket stands its span with the brackets inside it. -/
theorem exists_split (source : String) {n : Nest} {start stop : Nat} (h : n.Proper start stop)
    {b : Bracket} (hb : b ∈ n.brackets) :
    ∃ before inner behind,
      n.text source start stop = before ++
        (b.opening ++ text source inner b.span.start b.span.stop ++ b.closing) ++ behind ∧
      inner.Proper b.span.start b.span.stop ∧ inner.brackets = b.inside n.brackets := by
  -- `b` is the first bracket, or in it, or behind it
  induction n generalizing start stop with
  | none => cases hb
  | cons c inner rest ihInner ihRest =>
    obtain ⟨hstart, hlt, haround, hinner, hrest⟩ := h
    rw [brackets, List.mem_cons, List.mem_append] at hb
    rcases hb with rfl | hb | hb
    · have hbehind : ∀ d ∈ rest.brackets, ¬b.Around d := fun d => hrest.not_around (Nat.le_refl _)
      refine ⟨Text.excerpt source start b.span.start, inner, rest.text source b.span.stop stop, rfl,
        hinner, ?_⟩
      rw [brackets, inside_cons fun h => h.asymm h, inside_append, inside_eq_self haround,
        inside_eq_nil hbehind, List.append_nil]
    · obtain ⟨before, within, behind, htext, hwithin, hinside⟩ := ihInner hinner hb
      have hbehind : ∀ d ∈ rest.brackets, ¬b.Around d := fun d =>
        hrest.not_around (hinner.bounds b hb).2.2
      refine ⟨Text.excerpt source start c.span.start ++ c.opening ++ before, within,
        behind ++ c.closing ++ rest.text source c.span.stop stop, ?_, hwithin, ?_⟩
      · simp only [text, htext, String.append_assoc]
      · rw [brackets, inside_cons (haround b hb).asymm, inside_append, inside_eq_nil hbehind,
          List.append_nil, hinside]
    · obtain ⟨before, within, behind, htext, hwithin, hinside⟩ := ihRest hrest hb
      have hin := hrest.bounds b hb
      have hbefore : ∀ d ∈ inner.brackets, ¬b.Around d := fun d hd =>
        have hd := hinner.bounds d hd
        not_around_of_beside hd.2.1 (.inr (Nat.le_trans hd.2.2 hin.1))
      have hfirst : ¬b.Around c := not_around_of_beside hlt (.inr hin.1)
      refine ⟨Text.excerpt source start c.span.start ++
        (c.opening ++ inner.text source c.span.start c.span.stop ++ c.closing) ++ before, within,
        behind, ?_, hwithin, ?_⟩
      · simp only [text, htext, String.append_assoc]
      · rw [brackets, inside_cons hfirst, inside_append, inside_eq_nil hbefore, List.nil_append,
          hinside]

end Nest

/-! ## Families of brackets -/

namespace Bracket

/-- Outer brackets come before inner ones, and otherwise the one that starts first. -/
def outerFirst (b c : Bracket) : Bool :=
  decide (b.span.start < c.span.start ∨ b.span.start = c.span.start ∧
    (c.span.stop < b.span.stop ∨ b.span.stop = c.span.stop ∧ c.rank ≤ b.rank))

theorem outerFirst_trans (b c d : Bracket) (hbc : b.outerFirst c) (hcd : c.outerFirst d) :
    b.outerFirst d := by
  simp only [outerFirst, decide_eq_true_eq] at *
  omega

theorem outerFirst_total (b c : Bracket) : b.outerFirst c || c.outerFirst b := by
  simp only [outerFirst, Bool.or_eq_true, decide_eq_true_eq]
  omega

/-- The brackets from the outside to the inside, whatever order they are given in. -/
def arranged (bs : List Bracket) : List Bracket := bs.mergeSort outerFirst

theorem arranged_perm (bs : List Bracket) : (arranged bs).Perm bs := List.mergeSort_perm _ _

theorem inside_arranged (b : Bracket) (bs : List Bracket) :
    b.inside (arranged bs) = arranged (b.inside bs) :=
  filter_mergeSort outerFirst_trans outerFirst_total _ _

/-- The spans hold something and end by an offset, any two are nested or apart, and brackets around
one span have different ranks. -/
structure Laminar (bs : List Bracket) (stop : Nat) : Prop where
  bounds : ∀ b ∈ bs, b.span.start < b.span.stop ∧ b.span.stop ≤ stop
  distinct : bs.Pairwise fun b c => b.span = c.span → b.rank ≠ c.rank
  nested : ∀ b ∈ bs, ∀ c ∈ bs, b.span.contains c.span = true ∨ c.span.contains b.span = true ∨
    b.span.Beside c.span

theorem precedes_of_outerFirst {b c : Bracket} (hfirst : b.outerFirst c = true)
    (hrank : b.span = c.span → b.rank ≠ c.rank) (hlt : c.span.start < c.span.stop)
    (h : b.span.contains c.span = true ∨ c.span.contains b.span = true ∨
      b.span.Beside c.span) : b.Precedes c := by
  have hrank : b.span.start = c.span.start → b.span.stop = c.span.stop → b.rank ≠ c.rank :=
    fun hstart hstop => hrank (Span.eq_of_bounds hstart hstop)
  simp only [outerFirst, decide_eq_true_eq] at hfirst
  simp only [Span.contains, Bool.and_eq_true, decide_eq_true_eq, Span.Beside] at h
  unfold Precedes Around
  omega

namespace Laminar
variable {bs : List Bracket} {stop : Nat}

theorem pairwise_arranged (h : Laminar bs stop) : (arranged bs).Pairwise Precedes := by
  have hperm := arranged_perm bs
  have hsorted := List.pairwise_mergeSort outerFirst_trans outerFirst_total bs
  have hdistinct := (hperm.pairwise_iff fun hbc heq hrank => hbc heq.symm hrank.symm).mpr h.distinct
  refine (hsorted.and hdistinct).imp_of_mem fun {b c} hb hc hbc => ?_
  have hc := hperm.mem_iff.mp hc
  exact precedes_of_outerFirst hbc.1 hbc.2 (h.bounds c hc).1 (h.nested b (hperm.mem_iff.mp hb) c hc)

/-- Such brackets can be nested. -/
theorem proper (h : Laminar bs stop) : (Nest.ofList (arranged bs)).Proper 0 stop :=
  Nest.proper_ofList (Nat.zero_le stop)
    (fun b hb => ⟨Nat.zero_le _, h.bounds b ((arranged_perm bs).mem_iff.mp hb)⟩) h.pairwise_arranged

theorem brackets_ofList (h : Laminar bs stop) :
    (Nest.ofList (arranged bs)).brackets = arranged bs :=
  Nest.brackets_ofList (fun b hb => (h.bounds b ((arranged_perm bs).mem_iff.mp hb)).1)
    h.pairwise_arranged

end Laminar
end Bracket

/-! ## The texts in order -/

/-- The source between two offsets with texts put in, each at its offset. -/
def withTexts (source : String) (start stop : Nat) : List (Nat × String) → String
  | [] => Text.excerpt source start stop
  | (offset, text) :: texts =>
    Text.excerpt source start offset ++ text ++ withTexts source offset stop texts

theorem withTexts_append (source : String) (start stop offset : Nat) (text : String)
    (xs ys : List (Nat × String)) :
    withTexts source start stop (xs ++ (offset, text) :: ys) =
      withTexts source start offset xs ++ text ++ withTexts source offset stop ys := by
  induction xs generalizing start with
  | nil => rfl
  | cons x xs ih =>
    rw [List.cons_append, withTexts, ih, withTexts]
    simp only [String.append_assoc]

namespace Nest

/-- The texts of all brackets with their offsets, in the order in which they stand. -/
def halves : Nest → List (Nat × String)
  | none => []
  | cons b inner rest =>
    (b.span.start, b.opening) :: (inner.halves ++ (b.span.stop, b.closing) :: rest.halves)

theorem text_eq_withTexts (source : String) (n : Nest) (start stop : Nat) :
    n.text source start stop = withTexts source start stop n.halves := by
  induction n generalizing start stop with
  | none => rfl
  | cons b inner rest ihInner ihRest =>
    rw [text, halves, withTexts, withTexts_append, ihInner, ihRest]
    simp only [String.append_assoc]

namespace Proper

theorem halves_bounds {n : Nest} {start stop : Nat} (h : n.Proper start stop) :
    ∀ x ∈ n.halves, start ≤ x.1 ∧ x.1 ≤ stop := by
  induction n generalizing start stop with
  | none => simp [halves]
  | cons b inner rest ihInner ihRest =>
    obtain ⟨hstart, hlt, -, hinner, hrest⟩ := h
    have hle := hrest.le
    intro x hx
    rw [halves, List.mem_cons, List.mem_append, List.mem_cons] at hx
    rcases hx with rfl | hx | rfl | hx
    · exact ⟨hstart, Nat.le_trans (Nat.le_of_lt hlt) hle⟩
    · have := ihInner hinner x hx
      omega
    · exact ⟨Nat.le_trans hstart (Nat.le_of_lt hlt), hle⟩
    · have := ihRest hrest x hx
      omega

theorem halves_pairwise {n : Nest} {start stop : Nat} (h : n.Proper start stop) :
    n.halves.Pairwise fun x y => x.1 ≤ y.1 := by
  induction n generalizing start stop with
  | none => exact List.Pairwise.nil
  | cons b inner rest ihInner ihRest =>
    obtain ⟨hstart, hlt, -, hinner, hrest⟩ := h
    rw [halves, List.pairwise_cons, List.pairwise_append, List.pairwise_cons]
    refine ⟨fun x hx => ?_, ihInner hinner, ⟨fun x hx => (hrest.halves_bounds x hx).1,
      ihRest hrest⟩, fun x hx y hy => ?_⟩
    · rw [List.mem_append, List.mem_cons] at hx
      rcases hx with hx | rfl | hx
      · exact (hinner.halves_bounds x hx).1
      · exact Nat.le_of_lt hlt
      · exact Nat.le_trans (Nat.le_of_lt hlt) (hrest.halves_bounds x hx).1
    · have hx := (hinner.halves_bounds x hx).2
      rcases List.mem_cons.mp hy with rfl | hy
      · exact hx
      · exact Nat.le_trans hx (hrest.halves_bounds y hy).1

end Proper

/-- The closing texts at an offset, the last bracket first, and behind them the opening ones. -/
def halvesAt (bs : List Bracket) (offset : Nat) : List (Nat × String) :=
  ((bs.filter (·.span.stop == offset)).reverse.map fun b => (offset, b.closing)) ++
    (bs.filter (·.span.start == offset)).map fun b => (offset, b.opening)

/-- The texts that stand at an offset, in order. -/
theorem Proper.filter_halves {n : Nest} {start stop : Nat} (h : n.Proper start stop)
    (offset : Nat) : n.halves.filter (·.1 == offset) = halvesAt n.brackets offset := by
  induction n generalizing start stop with
  | none => rfl
  | cons b inner rest ihInner ihRest =>
    obtain ⟨hstart, hlt, -, hinner, hrest⟩ := h
    have hin := hinner.bounds
    have hbehind := hrest.bounds
    have none : ∀ {bs : List Bracket} {p : Bracket → Nat}, (∀ c ∈ bs, p c ≠ offset) →
        bs.filter (p · == offset) = [] := fun h =>
      List.filter_eq_nil_iff.mpr fun c hc => by simpa using h c hc
    rw [halves, List.filter_cons, List.filter_append, List.filter_cons, ihInner hinner,
      ihRest hrest]
    simp only [halvesAt, brackets, List.filter_cons, List.filter_append, beq_iff_eq]
    rcases Nat.lt_trichotomy offset b.span.stop with hoffset | hoffset | hoffset
    · -- what comes behind the bracket has not begun
      have hstop := none (p := (·.span.stop)) fun c hc => by
        have := hbehind c hc
        omega
      have hstart := none (p := (·.span.start)) fun c hc => by
        have := hbehind c hc
        omega
      rw [hstop, hstart, if_neg (Nat.ne_of_gt hoffset), if_neg (Nat.ne_of_gt hoffset)]
      by_cases hfirst : b.span.start = offset
      · have hclosed := none (p := (·.span.stop)) fun c hc => by
          have := hin c hc
          omega
        simp [hfirst, hclosed]
      · simp [hfirst]
    · -- those inside have all begun, and what comes behind has not ended
      have hstop := none (p := (·.span.stop)) fun c hc => by
        have := hbehind c hc
        omega
      have hstart := none (p := (·.span.start)) fun c hc => by
        have := hin c hc
        omega
      rw [hstop, hstart, if_pos hoffset.symm, if_pos hoffset.symm, if_neg (by omega),
        if_neg (by omega)]
      simp [hoffset]
    · -- all has ended that is inside
      have hstop := none (p := (·.span.stop)) fun c hc => by
        have := hin c hc
        omega
      have hstart := none (p := (·.span.start)) fun c hc => by
        have := hin c hc
        omega
      rw [hstop, hstart, if_neg (by omega), if_neg (by omega), if_neg (by omega),
        if_neg (by omega)]
      simp

end Nest

/-! ## The edits that put the texts in -/

namespace Bracket

/-- The insertions of the texts of a bracket. The first may be anchored at another span that starts
where that of the bracket does. -/
def edits (anchor : Bracket → Span) (b : Bracket) : List Edit :=
  [.insertBefore (anchor b) b.opening, .insertAfter b.span b.closing]

variable {source : String} {anchor : Bracket → Span} {bs : List Bracket} {n : Nest} {stop : Nat}

theorem mem_edits {b : Bracket} {e : Edit} :
    e ∈ b.edits anchor ↔
      e = .insertBefore (anchor b) b.opening ∨ e = .insertAfter b.span b.closing := by
  rw [edits, List.mem_cons, List.mem_singleton]

theorem insertion_of_mem_edits (hbs : ∀ b ∈ bs, b.span.Fits source)
    (hanchor : ∀ b ∈ bs, (anchor b).Fits source) {e : Edit} (he : e ∈ bs.flatMap (edits anchor)) :
    e.range.Fits source ∧ e.side ≠ .replace := by
  obtain ⟨b, hb, he⟩ := List.mem_flatMap.mp he
  rcases mem_edits.mp he with rfl | rfl
  · exact ⟨hanchor b hb, by simp [Edit.insertBefore]⟩
  · exact ⟨hbs b hb, by simp [Edit.insertAfter]⟩

theorem filter_closing (anchor : Bracket → Span) (bs : List Bracket) (offset : Nat) :
    (bs.flatMap (edits anchor)).filter (fun e => e.side == .after && e.range.stop == offset) =
      (bs.filter (·.span.stop == offset)).map fun b => .insertAfter b.span b.closing := by
  induction bs with
  | nil => rfl
  | cons b bs ih =>
    rw [List.flatMap_cons, List.filter_append, ih, edits, List.filter_cons]
    by_cases h : b.span.stop = offset <;> simp [Edit.insertBefore, Edit.insertAfter, h]

theorem filter_opening (anchor : Bracket → Span) (bs : List Bracket) (offset : Nat) :
    (bs.flatMap (edits anchor)).filter (fun e => e.side == .before && e.range.start == offset) =
      (bs.filter fun b => (anchor b).start == offset).map fun b =>
        .insertBefore (anchor b) b.opening := by
  induction bs with
  | nil => rfl
  | cons b bs ih =>
    rw [List.flatMap_cons, List.filter_append, ih, edits, List.filter_cons]
    by_cases h : (anchor b).start = offset <;> simp [Edit.insertBefore, Edit.insertAfter, h]

theorem filter_replacing (anchor : Bracket → Span) (bs : List Bracket) (offset : Nat) :
    (bs.flatMap (edits anchor)).filter (fun e => e.side == .replace && e.range.start == offset) =
      [] := by
  refine List.filter_eq_nil_iff.mpr fun e he => ?_
  obtain ⟨b, -, he⟩ := List.mem_flatMap.mp he
  rcases mem_edits.mp he with rfl | rfl <;> simp [Edit.insertBefore, Edit.insertAfter]

/-- Of two brackets that end at one offset the first is closed first, or both start at one offset. -/
def closesFirst (b c : Bracket) : Bool := decide (c.span.start ≤ b.span.start)

theorem closesFirst_trans (b c d : Bracket) (hbc : b.closesFirst c) (hcd : c.closesFirst d) :
    b.closesFirst d := by
  simp only [closesFirst, decide_eq_true_eq] at *
  omega

theorem closesFirst_total (b c : Bracket) : b.closesFirst c || c.closesFirst b := by
  simp only [closesFirst, Bool.or_eq_true, decide_eq_true_eq]
  omega

/-- Brackets stand around each other in one order only. -/
theorem eq_of_around {xs ys : List Bracket} (hxs : xs.Pairwise Around) (hys : ys.Pairwise Around)
    (hperm : xs.Perm ys) : xs = ys :=
  hperm.eq_of_pairwise (fun _ _ _ _ h h' => absurd h' h.asymm) hxs hys

/-- Brackets that end at one offset are closed from the inside. -/
theorem map_closingAt (hperm : n.brackets.Perm bs) (hn : n.Proper 0 stop)
    (hrank : bs.Pairwise fun b c => b.span = c.span → b.rank < c.rank) (offset : Nat) :
    (Revision.closingAt (bs.flatMap (edits anchor)) offset).map (fun e => (e.position, e.text)) =
      (n.brackets.filter (·.span.stop == offset)).reverse.map fun b => (offset, b.closing) := by
  let ending := bs.filter (·.span.stop == offset)
  let sorted := ending.mergeSort closesFirst
  have hsort : Revision.closingAt (bs.flatMap (edits anchor)) offset =
      sorted.map fun b => .insertAfter b.span b.closing := by
    rw [Revision.closingAt, filter_closing]
    symm
    exact List.map_mergeSort fun b _ c _ => rfl
  have hends : ∀ b ∈ sorted, b.span.stop = offset := fun b hb => by
    simpa using (List.mem_filter.mp ((List.mergeSort_perm _ _).mem_iff.mp hb)).2
  have hsorted : sorted.Pairwise fun b c => c.Around b := by
    refine (pairwise_mergeSort_stable closesFirst_trans closesFirst_total
      (hrank.filter _)).imp_of_mem fun {b c} hb hc hbc => ?_
    have hb := hends b hb
    have hc := hends c hc
    simp only [closesFirst, decide_eq_true_eq] at hbc
    refine ⟨hbc.1, by omega, fun hstart hstop => hbc.2 (by omega) ?_⟩
    exact Span.eq_of_bounds hstart hstop
  have hnested : (n.brackets.filter (·.span.stop == offset)).Pairwise Around := by
    refine (hn.pairwise.filter _).imp_of_mem fun {b c} hb hc hbc => ?_
    obtain ⟨-, hb⟩ := List.mem_filter.mp hb
    obtain ⟨hmem, hc⟩ := List.mem_filter.mp hc
    rw [beq_iff_eq] at hb hc
    have := hn.bounds c hmem
    exact hbc.resolve_right (by omega)
  have heq : sorted.reverse = n.brackets.filter (·.span.stop == offset) :=
    eq_of_around (List.pairwise_reverse.mpr hsorted) hnested
      ((List.reverse_perm _).trans ((List.mergeSort_perm _ _).trans (hperm.filter _).symm))
  rw [hsort, List.map_map, ← heq, List.reverse_reverse]
  refine List.map_congr_left fun b hb => ?_
  rw [← hends b hb]
  rfl

/-- The edits come out as the texts stand in the nest, if they open in the order of the nest. -/
theorem map_placed (hperm : n.brackets.Perm bs) (hn : n.Proper 0 stop)
    (hrank : bs.Pairwise fun b c => b.span = c.span → b.rank < c.rank)
    (hopening : ∀ offset, (Revision.openingAt (bs.flatMap (edits anchor)) offset).map
      (fun e => (e.position, e.text)) =
        (n.brackets.filter (·.span.start == offset)).map fun b => (offset, b.opening)) :
    (Revision.placed (bs.flatMap (edits anchor))).map (fun e => (e.position, e.text)) =
      n.halves := by
  have hsorted : (Revision.placed (bs.flatMap (edits anchor))).Pairwise
      fun e f => e.position ≤ f.position := by
    refine (List.pairwise_mergeSort Edit.comesBefore_trans Edit.comesBefore_total _).imp
      fun {e f} hef => ?_
    have := (Edit.comesBefore_iff e f).mp hef
    omega
  refine eq_of_filter_key (·.1) (List.pairwise_map.mpr hsorted) hn.halves_pairwise fun offset => ?_
  have hat := congrArg (List.map fun e => (e.position, e.text))
    (Revision.filter_placed (bs.flatMap (edits anchor)) offset)
  rw [Revision.comingOut, Revision.replacingAt, filter_replacing, List.mergeSort_nil,
    List.append_nil, List.map_append, map_closingAt hperm hn hrank, hopening] at hat
  rw [hn.filter_halves, List.filter_map]
  exact hat

/-- Insertions alone come out as texts put in at their positions. -/
theorem renderFrom_of_insertions {cursor : Nat} {edits : List Edit}
    (hedits : ∀ e ∈ edits, e.range.Fits source ∧ e.side ≠ .replace)
    (hsorted : edits.Pairwise fun e f => e.position ≤ f.position)
    (hboundary : Text.isBoundary source.toList cursor = true)
    (hcursor : ∀ e ∈ edits, cursor ≤ e.position) :
    String.ofList (Revision.renderFrom source.toList cursor edits) =
      withTexts source cursor (Text.byteLength source.toList)
        (edits.map fun e => (e.position, e.text)) := by
  induction edits generalizing cursor with
  | nil =>
    rw [Revision.renderFrom, List.map_nil, withTexts, Text.excerpt, Text.slice_to_end hboundary]
  | cons e es ih =>
    obtain ⟨hes, hsorted⟩ := List.pairwise_cons.mp hsorted
    obtain ⟨hfits, hside⟩ := hedits e (by simp)
    have hregion : e.region.stop = e.position := by
      rw [Edit.position_eq_region_start, Edit.region_empty_of_insertion hside]
    rw [Revision.renderFrom_cons (hcursor e (by simp)), hregion, String.ofList_append,
      String.ofList_append, ih (fun f hf => hedits f (by simp [hf])) hsorted
        (Revision.region_boundary hfits).1 hes, String.ofList_toList]
    rfl

/-- The source with the texts of brackets put in is that of a nest of them. -/
theorem render_eq_text (hbs : ∀ b ∈ bs, b.span.Fits source)
    (hanchor : ∀ b ∈ bs, (anchor b).Fits source) (hperm : n.brackets.Perm bs)
    (hn : n.Proper 0 (Text.byteLength source.toList))
    (hrank : bs.Pairwise fun b c => b.span = c.span → b.rank < c.rank)
    (hopening : ∀ offset, (Revision.openingAt (bs.flatMap (edits anchor)) offset).map
      (fun e => (e.position, e.text)) =
        (n.brackets.filter (·.span.start == offset)).map fun b => (offset, b.opening)) :
    Revision.render ⟨source, bs.flatMap (edits anchor)⟩ =
      n.text source 0 (Text.byteLength source.toList) := by
  have hplaced := map_placed hperm hn hrank hopening
  have hsorted := List.pairwise_map.mp (hplaced ▸ hn.halves_pairwise)
  rw [Nest.text_eq_withTexts, ← hplaced]
  exact renderFrom_of_insertions
    (fun e he => insertion_of_mem_edits hbs hanchor ((Revision.placed_perm _).mem_iff.mp he)) hsorted
    (Text.isBoundary_zero _) fun e _ => Nat.zero_le _

end Bracket
end SpecUpgrade
