import Mathlib
import SpecUpgrade.Proofs.Kinship
import SpecUpgrade.Proofs.Outcomes
import SpecUpgrade.Proofs.Rendering

/-!
A conversion that takes nothing for granted. Every cut of the source, every span between computed
offsets and every look-up of a node is checked, and a check that fails ends the conversion. In a tree
that the builder made no check fails, whatever the places of its nodes, so the conversion always
comes to its end; and every match is then converted with all its edits or told of and left alone.
-/

namespace SpecUpgrade.Checked

/-- What must not happen: a cut of the source out of range or inside a character, a span whose
bounds are out of order, a look-up of a node that is not there. -/
inductive Fault where
  | cut
  | disorder
  | missing
  deriving DecidableEq, Repr

/-! ## Checks -/

/-- The text from an offset on. -/
def cutFrom (cs : List Char) (offset : Nat) : Except Fault (List Char) :=
  if Text.isBoundary cs offset then .ok (Text.dropTo offset cs) else .error .cut

def cut (cs : List Char) (range : Span) : Except Fault (List Char) :=
  (Text.slice? cs range.start range.stop).elim (.error .cut) .ok

def span (start stop : Nat) : Except Fault Span :=
  (Span.ofBounds? start stop).elim (.error .disorder) .ok

/-- All of the nodes are there. -/
def known (t : Tree) (ids : List Nat) : Except Fault Unit :=
  if ids.all (decide <| · < t.size) then .ok () else .error .missing

/-! ## The conversion -/

def skipBlank (cs : List Char) (offset : Nat) : Except Fault Nat := do
  let rest ← cutFrom cs offset
  return offset + Text.byteLength (rest.takeWhile Text.isBlank)

def skipOperator (cs : List Char) (offset : Nat) : Except Fault Nat := do
  let rest ← cutFrom cs offset
  match Tree.callOperators.find? (·.isPrefixOf rest) with
  | some op => return offset + Text.byteLength op
  | none => return offset

def selectorStart (t : Tree) (id : Nat) : Except Fault Nat :=
  match t.receiver? id with
  | some r => do
    let offset ← skipBlank t.source.toList (t.range r).stop
    let offset ← skipOperator t.source.toList offset
    skipBlank t.source.toList offset
  | none => .ok (t.range id).start

def selector? (t : Tree) (id : Nat) : Except Fault (Option Span) :=
  match t.methodName? id with
  | none => .ok none
  | some name => do
    let start ← selectorStart t id
    let rest ← cutFrom t.source.toList start
    let stop := start + Text.byteLength name.toList
    if name.toList.isPrefixOf rest && decide (stop ≤ (t.range id).stop) then
      return some (← span start stop)
    else return none

def tail? (t : Tree) (id : Nat) : Except Fault (Option Span) :=
  match t.receiver? id with
  | none => .ok none
  | some r => do
    match ← selector? t id with
    | some s => return some (← span (t.range r).stop s.stop)
    | none => return none

def should? (t : Tree) (id : Nat) : Except Fault (Option Match) := do
  let tail ← tail? t id
  return do
    guard (t.kind id == "send")
    let negative ← Match.polarity? (← t.methodName? id)
    let subject ← t.receiver? id
    guard ((t.arguments id).length == 1)
    let tail ← tail
    return .should id subject tail negative

def stub? (t : Tree) (id : Nat) : Except Fault (Option Match) := do
  let tail ← tail? t id
  return do
    guard (t.kind id == "send")
    let name ← t.methodName? id
    guard (name == "stub" || name == "stub!")
    let object ← t.receiver? id
    match t.arguments id with
    | [arg] =>
      let messages ← Match.messages? (t.kind arg)
      let tail ← tail
      return .stub id object tail messages
    | _ => none

def ofRule? (t : Tree) (id : Nat) : Rule → Except Fault (Option Match)
  | .should => should? t id
  | .stub => stub? t id
  | .beClose => .ok (Match.beClose? t id)

def firstOf (t : Tree) (id : Nat) : List Rule → Except Fault (Option Match)
  | [] => .ok none
  | rule :: rules => do
    match ← ofRule? t id rule with
    | some m => return some m
    | none => firstOf t id rules

/-- The match at a node, which is looked up with all that it holds and all that is above it. -/
def at? (t : Tree) (enabled : List Rule) (id : Nat) : Except Fault (Option Match) := do
  known t (id :: t.childIds id ++ t.ancestors id)
  firstOf t id enabled

def all (t : Tree) (enabled : List Rule) : Except Fault (List Match) := do
  return (← t.nodesInOrder.mapM (at? t enabled)).reduceOption

def text (t : Tree) (id : Nat) : Except Fault String := do
  return String.ofList (← cut t.source.toList (t.range id))

/-- The edits of a match; only those of a comparison quote the source. -/
def edits (t : Tree) : Match → Except Fault (List Edit)
  | .beClose node expected delta => do
    let delta ← text t delta
    let expected ← text t expected
    return [.replace (t.range node) ("be_within(" ++ delta ++ ").of(" ++ expected ++ ")")]
  | m => .ok (m.edits t)

def apply (t : Tree) (facts : Facts) (r : Revision) (m : Match) :
    Except Fault (Except Obstacle Revision) :=
  match m.needs?.filter (!·.holds t facts m.node) with
  | some a => .ok (.error (.unavailable m.rule a.method))
  | none => do
    match r.submitAll (← edits t m) with
    | .ok r => return .ok r
    | .error refusal => return .error (.conflict m.rule refusal)

def step (t : Tree) (facts : Facts) (p : Progress) (m : Match) : Except Fault Progress := do
  let place := Position.ofOffset t.source (t.range m.node).start
  match ← apply t facts p.revision m with
  | .ok r => return { p with
      revision := r
      conversions := p.conversions ++ [⟨m.rule.name, place.line, place.col⟩] }
  | .error o => return { p with
      notices := p.notices ++ [⟨o.kind, o.rule.name, o.message, place.line, place.col⟩] }

def render (r : Revision) : Except Fault String := r.render?.elim (.error .cut) .ok

/-- The conversion of a tree, or the first check that fails. -/
def convert (t : Tree) (enabled : List Rule) (facts : Facts) : Except Fault ConvertedSource := do
  let ms ← all t enabled
  let p ← ms.foldlM (step t facts) ⟨.ofSource t.source, [], []⟩
  let source ← render p.revision
  return ⟨source, source != t.source, p.conversions, p.notices⟩

/-! ## No check fails -/

variable {t : Tree}

theorem cutFrom_eq_ok {cs : List Char} {offset : Nat} (h : Text.isBoundary cs offset = true) :
    cutFrom cs offset = .ok (Text.dropTo offset cs) :=
  if_pos h

theorem cut_eq_ok {source : String} {range : Span} (h : range.Fits source) :
    cut source.toList range = .ok (Text.slice source.toList range.start range.stop) := by
  rw [cut, Text.slice?_eq_some h.start_boundary h.stop_boundary range.start_le_stop]
  rfl

theorem span_eq_ok {start stop : Nat} (h : start ≤ stop) : span start stop = .ok ⟨start, stop, h⟩ := by
  rw [span, Span.ofBounds?, dif_pos h]
  rfl

theorem skipBlank_eq_ok {cs : List Char} {offset : Nat} (h : Text.isBoundary cs offset = true) :
    skipBlank cs offset = .ok (Tree.skipBlank cs offset) := by
  rw [skipBlank, cutFrom_eq_ok h]
  rfl

theorem skipOperator_eq_ok {cs : List Char} {offset : Nat} (h : Text.isBoundary cs offset = true) :
    skipOperator cs offset = .ok (Tree.skipOperator cs offset) := by
  rw [skipOperator, cutFrom_eq_ok h, Tree.skipOperator]
  simp only [bind, Except.bind, pure, Except.pure]
  cases Tree.callOperators.find? (·.isPrefixOf (Text.dropTo offset cs)) <;> rfl

theorem selectorStart_eq_ok (ht : t.Built) (id : Nat) :
    selectorStart t id = .ok (t.selectorStart id) := by
  unfold selectorStart Tree.selectorStart
  cases hr : t.receiver? id with
  | none => rfl
  | some r =>
    have hstop := (Tree.range_fits ht r).stop_boundary
    have hblank := Tree.isBoundary_skipBlank hstop
    simp only [skipBlank_eq_ok hstop, skipOperator_eq_ok hblank,
      skipBlank_eq_ok (Tree.isBoundary_skipOperator hblank), bind, Except.bind]

theorem selector?_eq_ok (ht : t.Built) (id : Nat) : selector? t id = .ok (t.selector? id) := by
  unfold selector? Tree.selector?
  cases hname : t.methodName? id with
  | none => rfl
  | some name =>
    simp only [selectorStart_eq_ok ht, cutFrom_eq_ok (ht.isBoundary_selectorStart id),
      span_eq_ok (Nat.le_add_right _ _), bind, Except.bind, pure, Except.pure, Option.bind_some]
    split <;> rfl

theorem tail?_eq_ok (ht : t.Built) (id : Nat) : tail? t id = .ok (t.tail? id) := by
  unfold tail?
  cases hr : t.receiver? id with
  | none => simp [Tree.tail?, hr]
  | some r =>
    simp only [selector?_eq_ok ht, bind, Except.bind, pure, Except.pure]
    cases hs : t.selector? id with
    | none => simp [Tree.tail?, hs]
    | some s =>
      rw [Tree.tail?_of_selector? hr hs]
      simp only [span_eq_ok (Tree.receiver_le_selector hr hs)]

theorem ofRule?_eq_ok (ht : t.Built) (id : Nat) (rule : Rule) :
    ofRule? t id rule = .ok (Match.ofRule? t id rule) := by
  cases rule with
  | should => rw [ofRule?, should?, tail?_eq_ok ht]; rfl
  | stub => rw [ofRule?, stub?, tail?_eq_ok ht]; rfl
  | beClose => rfl

theorem firstOf_eq_ok (ht : t.Built) (id : Nat) (enabled : List Rule) :
    firstOf t id enabled = .ok (Match.at? t enabled id) := by
  unfold Match.at?
  induction enabled with
  | nil => rfl
  | cons rule rules ih =>
    rw [firstOf, ofRule?_eq_ok ht, List.findSome?_cons]
    cases Match.ofRule? t id rule with
    | some m => rfl
    | none => exact ih

theorem at?_eq_ok (ht : t.Built) (enabled : List Rule) {id : Nat} (hid : id < t.size) :
    at? t enabled id = .ok (Match.at? t enabled id) := by
  have hknown : (id :: t.childIds id ++ t.ancestors id).all (decide <| · < t.size) = true := by
    rw [List.all_eq_true]
    intro c hc
    rw [List.mem_append, List.mem_cons] at hc
    rw [decide_eq_true_eq]
    rcases hc with (rfl | hc) | hc
    · exact hid
    · exact Nat.lt_trans (t.childIds_lt hc) hid
    · exact (Tree.lt_of_mem_ancestors hc).2
  rw [at?, known, if_pos hknown]
  exact firstOf_eq_ok ht id enabled

theorem mapM_eq_ok {ε α β : Type} {f : α → Except ε β} {g : α → β} {l : List α}
    (h : ∀ a ∈ l, f a = .ok (g a)) : l.mapM f = .ok (l.map g) := by
  induction l with
  | nil => rfl
  | cons a l ih =>
    rw [List.mapM_cons, h a (by simp), ih fun b hb => h b (by simp [hb])]
    rfl

theorem all_eq_ok (ht : t.Built) (enabled : List Rule) :
    all t enabled = .ok (Match.all t enabled) := by
  have hall : ∀ id ∈ t.nodesInOrder, at? t enabled id = .ok (Match.at? t enabled id) :=
    fun id hid => at?_eq_ok ht enabled (ht.lt_size_of_mem_nodesInOrder hid)
  rw [all, mapM_eq_ok hall, Match.all]
  simp [pure, Except.pure, bind, Except.bind, List.reduceOption, List.filterMap_map]

theorem text_eq_ok (ht : t.Built) (id : Nat) : text t id = .ok (t.text id) := by
  rw [text, cut_eq_ok (Tree.range_fits ht id)]
  rfl

theorem edits_eq_ok (ht : t.Built) (m : Match) : edits t m = .ok (m.edits t) := by
  cases m with
  | beClose node expected delta =>
    rw [edits, text_eq_ok ht, text_eq_ok ht]
    rfl
  | should node subject tail negative => rfl
  | stub node object tail messages => rfl

theorem apply_eq_ok (ht : t.Built) (facts : Facts) (r : Revision) (m : Match) :
    apply t facts r m = .ok (m.apply t facts r) := by
  unfold apply Match.apply
  cases m.needs?.filter (!·.holds t facts m.node) with
  | some a => rfl
  | none =>
    simp only [edits_eq_ok ht, bind, Except.bind]
    cases r.submitAll (m.edits t) <;> rfl

theorem step_eq_ok (ht : t.Built) (facts : Facts) (p : Progress) (m : Match) :
    step t facts p m = .ok (p.step t facts m) := by
  unfold step Progress.step
  simp only [apply_eq_ok ht, bind, Except.bind]
  cases m.apply t facts p.revision <;> rfl

theorem foldlM_step_eq_ok (ht : t.Built) (facts : Facts) (ms : List Match) (p : Progress) :
    ms.foldlM (step t facts) p = .ok (ms.foldl (Progress.step t facts) p) := by
  induction ms generalizing p with
  | nil => rfl
  | cons m ms ih =>
    rw [List.foldlM_cons, step_eq_ok ht, List.foldl_cons]
    exact ih _

/-- Whatever the places of its nodes, the conversion of a tree passes all checks. -/
theorem convert_eq_ok (ht : t.Built) (enabled : List Rule) (facts : Facts) :
    convert t enabled facts = .ok (t.convert enabled facts) := by
  have hsound : Revision.Sound (t.progress enabled facts).revision.source
      (t.progress enabled facts).revision.edits := by
    rw [Tree.progress_eq]
    exact Match.outcomes_sound (Revision.sound_nil _) _
  have hrender : render (t.progress enabled facts).revision =
      .ok (t.progress enabled facts).revision.render := by
    rw [render, Revision.render?_eq_some hsound]
    rfl
  rw [convert, all_eq_ok ht]
  simp only [bind, Except.bind, foldlM_step_eq_ok ht]
  rw [← Tree.progress, hrender]
  rfl

end SpecUpgrade.Checked

namespace SpecUpgrade.Tree

/-- Whatever the dump says of the places of its nodes, the conversion comes to its end without a cut
or a span that fails. Every match, in pre-order, is told of once, as converted or as left alone; what
is left of the matches are the edits of those that were converted, group after group; a conflict is
always an overlap; and where nothing is converted the source stays. The lines and columns that are
told of fit thirty-two bits unless the source is longer than that. -/
theorem convert_all_or_nothing {path source dump : String} {t : Tree}
    (h : ofDump path source dump = .ok t) (enabled : List Rule) (facts : Facts) :
    let os := t.outcomes enabled facts
    let out := t.convert enabled facts
    let revision := (t.progress enabled facts).revision
    Checked.convert t enabled facts = .ok out ∧
      os.map (·.found) = t.nodesInOrder.filterMap (Match.at? t enabled) ∧
      out.conversions = os.filterMap (·.conversion? t) ∧
      out.notices = os.filterMap (·.notice? t) ∧
      (∀ o ∈ os, (o.conversion? t).isSome = (o.notice? t).isNone) ∧
      out.source = revision.render ∧ revision.source = source ∧
      revision.edits = os.flatMap (·.edits t) ∧
      (∀ o ∈ os, o.edits t = if (o.conversion? t).isSome then o.found.edits t else []) ∧
      (∀ o ∈ os, ∀ notice ∈ o.notice? t, notice.kind = "edit_conflict" →
        ∃ accepted rejected,
          o.obstacle? = some (.conflict o.found.rule (.overlap accepted rejected))) ∧
      (out.conversions = [] → out.source = source) ∧
      (source.toList.length < Word.bound32 - 1 →
        (∀ c ∈ out.conversions, c.Fits) ∧ ∀ n ∈ out.notices, n.Fits) := by
  have ht := built_of_ofDump h
  have hsource := source_of_ofDump h
  have hconversions : (t.convert enabled facts).conversions =
      (t.outcomes enabled facts).filterMap (·.conversion? t) := by
    rw [convert_eq, progress_eq]
  have hnotices : (t.convert enabled facts).notices =
      (t.outcomes enabled facts).filterMap (·.notice? t) := by
    rw [convert_eq, progress_eq]
  refine ⟨Checked.convert_eq_ok ht enabled facts, Match.map_found_outcomes .., hconversions,
    hnotices, fun o _ => o.isSome_conversion? t, rfl, ?_, ?_, fun o _ => o.edits_eq t, ?_, ?_, ?_⟩
  · rw [progress_eq]
    exact hsource
  · rw [progress_eq]
  · intro o ho notice hnotice hkind
    obtain ⟨obstacle, hobstacle, rfl⟩ := Option.map_eq_some_iff.mp hnotice
    have hat := at?_of_mem_all (found_mem_all ho)
    obtain ⟨before, behind, -, hrun⟩ := Match.mem_outcomes ho
    rw [hobstacle] at hrun
    rcases Match.obstacle?_eq_some ht hat hrun.symm with
      ⟨-, method, rfl⟩ | ⟨accepted, rejected, rfl⟩
    · simp [Obstacle.kind] at hkind
    · exact ⟨accepted, rejected, hobstacle⟩
  · intro hnone
    rw [convert_eq, progress_eq] at hnone ⊢
    have hedits : (t.outcomes enabled facts).flatMap (Match.Outcome.edits t) = [] := by
      rw [List.flatMap_eq_nil_iff]
      intro o ho
      have := List.filterMap_eq_nil_iff.mp hnone o ho
      rw [o.edits_eq t, this]
      rfl
    exact (Revision.render_of_no_edits (r := ⟨t.source, _⟩) hedits).trans hsource
  · intro hlength
    rw [← hsource] at hlength
    rw [hconversions, hnotices]
    constructor
    · intro c hc
      obtain ⟨o, -, hc⟩ := List.mem_filterMap.mp hc
      exact Match.Outcome.fits_of_mem_conversion? hlength hc
    · intro n hn
      obtain ⟨o, -, hn⟩ := List.mem_filterMap.mp hn
      exact Match.Outcome.fits_of_mem_notice? hlength hn

set_option maxRecDepth 2048 in
/-- Of two comparisons whose places overlap, though neither is below the other, the first is
converted and the second left alone. -/
theorem convert_all_or_nothing_overlapping :
    ∃ t, ofDump "a.rb" "éa"
        "(x (send @0..3 nil :be_close (i @2..3) (i)) (send @2..3 nil :be_close (i) (i)))" = .ok t ∧
      Checked.convert t Rule.all .empty = .ok (t.convert Rule.all .empty) ∧
      (t.outcomes Rule.all .empty).map (·.converted) = [true, false] := by
  have hcheck : (ofDump "a.rb" "éa"
      "(x (send @0..3 nil :be_close (i @2..3) (i)) (send @2..3 nil :be_close (i) (i)))").map
        (fun t => (t.outcomes Rule.all .empty).map (·.converted)) = .ok [true, false] := by cbv
  cases hread : ofDump "a.rb" "éa"
      "(x (send @0..3 nil :be_close (i @2..3) (i)) (send @2..3 nil :be_close (i) (i)))" with
  | error e =>
    rw [hread] at hcheck
    cases hcheck
  | ok t =>
    rw [hread] at hcheck
    exact ⟨t, rfl, (convert_all_or_nothing hread Rule.all .empty).1, Except.ok.inj hcheck⟩

end SpecUpgrade.Tree
