import SpecUpgrade.Proofs.Checked
import SpecUpgrade.Proofs.Isolation

/-!
What a conversion takes away. The name of a call is found behind its receiver, past white space and
at most one operator, and nothing else is passed over. So where an expectation or a stub is
converted, only these and the name go, and the call that makes a block a value when it becomes a
block of `expect`.
-/

namespace SpecUpgrade

namespace Text

/-- A text stands between two offsets. -/
structure Reads (cs : List Char) (start stop : Nat) (text : List Char) : Prop where
  stands : text <+: dropTo start cs
  stop_eq : stop = start + byteLength text

namespace Reads

variable {cs xs ys : List Char} {a b c : Nat}

theorem slice_eq (h : Reads cs a b xs) : slice cs a b = xs := by
  obtain ⟨rest, hrest⟩ := h.stands
  rw [slice, h.stop_eq, Nat.add_sub_cancel_left, ← hrest, takeTo_byteLength]

/-- A text that stands at a boundary and one that stands behind it stand there together. -/
theorem append (ha : isBoundary cs a = true) (h : Reads cs a b xs) (h' : Reads cs b c ys) :
    Reads cs a c (xs ++ ys) := by
  obtain ⟨rest, hrest⟩ := h.stands
  have hsplit : (takeTo a cs ++ xs) ++ rest = cs := by
    rw [List.append_assoc, hrest, takeTo_append_dropTo]
  have hbehind : dropTo b cs = rest := by
    have hlength : byteLength (takeTo a cs ++ xs) = b := by
      rw [byteLength_append, byteLength_takeTo ha, h.stop_eq]
    have hdrop := dropTo_byteLength (takeTo a cs ++ xs) rest
    rwa [hsplit, hlength] at hdrop
  constructor
  · rw [← hrest, List.prefix_append_right_inj, ← hbehind]
    exact h'.stands
  · rw [h'.stop_eq, h.stop_eq, byteLength_append, Nat.add_assoc]

end Reads

end Text

/-- White space with at most one operator of a call in it. -/
def Gap (cs : List Char) : Prop :=
  ∃ front op back, cs = front ++ op ++ back ∧ (∀ c ∈ front, Text.isBlank c = true) ∧
    op ∈ [] :: Tree.callOperators ∧ ∀ c ∈ back, Text.isBlank c = true

namespace Tree

/-! ## The name of a call -/

theorem reads_skipBlank (cs : List Char) (offset : Nat) :
    ∃ blanks, (∀ c ∈ blanks, Text.isBlank c = true) ∧
      Text.Reads cs offset (skipBlank cs offset) blanks :=
  ⟨_, fun _ hc => List.mem_takeWhile_imp hc, List.takeWhile_prefix _, rfl⟩

theorem reads_skipOperator (cs : List Char) (offset : Nat) :
    ∃ op ∈ [] :: callOperators, Text.Reads cs offset (skipOperator cs offset) op := by
  unfold skipOperator
  split
  · rename_i op hop
    have hstands := List.find?_some hop
    exact ⟨op, List.mem_cons_of_mem _ (List.mem_of_find?_eq_some hop),
      List.isPrefixOf_iff_prefix.mp hstands, rfl⟩
  · exact ⟨[], List.mem_cons_self, List.nil_prefix, rfl⟩

/-- Where the search for the name of a call starts: behind the receiver, or with the call. -/
def searchStart (t : Tree) (id : Nat) : Nat :=
  match t.receiver? id with
  | some r => (t.range r).stop
  | none => (t.range id).start

variable {t : Tree} {id : Nat} {s : Span}

theorem searchStart_of_receiver {r : Nat} (h : t.receiver? id = some r) :
    t.searchStart id = (t.range r).stop := by
  simp only [searchStart, h]

/-- The search passes over a gap. -/
theorem Built.reads_gap (ht : t.Built) (id : Nat) :
    ∃ gap, Gap gap ∧ Text.Reads t.source.toList (t.searchStart id) (t.selectorStart id) gap := by
  unfold searchStart selectorStart
  cases hr : t.receiver? id with
  | none => exact ⟨[], ⟨[], [], [], rfl, by simp, by simp, by simp⟩, List.nil_prefix, rfl⟩
  | some r =>
    have hstop := (range_fits ht r).stop_boundary
    obtain ⟨front, hfront, hreads⟩ := reads_skipBlank t.source.toList (t.range r).stop
    obtain ⟨op, hop, hreads'⟩ := reads_skipOperator t.source.toList
      (skipBlank t.source.toList (t.range r).stop)
    obtain ⟨back, hback, hreads''⟩ := reads_skipBlank t.source.toList
      (skipOperator t.source.toList (skipBlank t.source.toList (t.range r).stop))
    exact ⟨front ++ op ++ back, ⟨front, op, back, rfl, hfront, hop, hback⟩,
      (hreads.append hstop hreads').append hstop hreads''⟩

/-- A span is the place of the name of a call. -/
structure NameAt (t : Tree) (id : Nat) (s : Span) : Prop where
  fits : s.Fits t.source
  name : t.methodName? id = some (t.excerpt s.start s.stop)
  stop_le : s.stop ≤ (t.range id).stop
  behind : t.searchStart id ≤ s.start
  gap : Gap (t.excerpt (t.searchStart id) s.start).toList

/-- Between the start of the search and the end of the name stand a gap and the name. -/
theorem Built.reads_selector (ht : t.Built) (h : t.selector? id = some s) :
    ∃ gap name, Gap gap ∧ t.methodName? id = some name ∧
      Text.Reads t.source.toList (t.searchStart id) s.start gap ∧
      Text.Reads t.source.toList s.start s.stop name.toList := by
  obtain ⟨name, hname, hstands, hstart, hstop, -⟩ := selector?_eq_some_iff.mp h
  obtain ⟨gap, hgap, hreads⟩ := ht.reads_gap id
  rw [← hstart] at hreads hstands
  exact ⟨gap, name, hgap, hname, hreads, hstands, hstop⟩

theorem Built.nameAt (ht : t.Built) (h : t.selector? id = some s) : t.NameAt id s := by
  obtain ⟨gap, name, hgap, hname, hreads, hreads'⟩ := ht.reads_selector h
  obtain ⟨-, -, -, hstart, -, hle⟩ := selector?_eq_some_iff.mp h
  have hboundary : Text.isBoundary t.source.toList s.start = true :=
    hstart ▸ ht.isBoundary_selectorStart id
  have hboundary' : Text.isBoundary t.source.toList s.stop = true := by
    rw [hreads'.stop_eq]
    exact isBoundary_behind hboundary hreads'.stands
  refine ⟨⟨Text.le_byteLength_of_isBoundary hboundary', hboundary, hboundary'⟩, ?_, hle, ?_, ?_⟩
  · rw [excerpt, hreads'.slice_eq, String.ofList_toList, hname]
  · rw [hreads.stop_eq]
    exact Nat.le_add_right _ _
  · rw [excerpt, hreads.slice_eq, String.toList_ofList]
    exact hgap

end Tree

/-! ## Matches -/

@[simp] theorem Edit.covers_replace (range : Span) (text : String) (offset : Nat) :
    (Edit.replace range text).covers offset = true ↔
      range.start ≤ offset ∧ offset < range.stop :=
  (covers_iff _ _).trans (and_iff_right rfl)

@[simp] theorem Edit.covers_insertBefore (range : Span) (text : String) (offset : Nat) :
    (Edit.insertBefore range text).covers offset = false := by
  simp [covers, insertBefore]

namespace Match

variable {t : Tree} {enabled : List Rule} {m : Match}

/-- The bytes that the edits of a match take away. -/
def Takes (t : Tree) (m : Match) (offset : Nat) : Prop :=
  ∃ e ∈ m.edits t, e.covers offset = true

/-- A match takes away the gap and the name of its call, and no more but the call that makes its
receiver a value, where that is replaced by `expect`. -/
structure TakesName (t : Tree) (m : Match) (subject : Nat) (s : Span) : Prop where
  receiver : t.receiver? m.node = some subject
  selector : t.selector? m.node = some s
  takes : ∀ offset, m.Takes t offset ↔
    t.searchStart m.node ≤ offset ∧ offset < s.stop ∨
      m.rule = .should ∧ ∃ call, constructor? t subject = some call ∧
        (t.range call).start ≤ offset ∧ offset < (t.range call).stop
  made : m.rule = .should → ∀ call, constructor? t subject = some call →
    t.childNode? subject 0 = some call ∧ MakesBlock t call ∧
      Edit.replace (t.range call) "expect" ∈ m.edits t

/-- The tail of a call reaches from the start of the search to the end of the name. -/
theorem Parts.exists_selector {id subject : Nat} {tail : Span} (h : Parts t id subject tail) :
    ∃ s, t.selector? id = some s ∧ tail.start = t.searchStart id ∧ tail.stop = s.stop := by
  obtain ⟨hstart, s, hs, hstop⟩ := Tree.tail?_eq_some h.tail h.receiver
  refine ⟨s, hs, ?_, hstop⟩
  rw [hstart, Tree.searchStart_of_receiver h.receiver]

theorem exists_takesName (hm : at? t enabled m.node = some m)
    (hrule : m.rule = .should ∨ m.rule = .stub) : ∃ subject s, m.TakesName t subject s := by
  have hstands := at?_stands hm
  cases m with
  | beClose node expected delta => simp [rule] at hrule
  | stub node object tail messages =>
    obtain ⟨-, hparts⟩ := hstands
    obtain ⟨s, hs, hstart, hstop⟩ := hparts.exists_selector
    refine ⟨object, s, hparts.receiver, hs, fun offset => ?_, by simp [rule]⟩
    simp [Takes, edits, rule, hstart, hstop]
  | should node subject tail negative =>
    obtain ⟨-, hparts⟩ := hstands
    obtain ⟨s, hs, hstart, hstop⟩ := hparts.exists_selector
    refine ⟨subject, s, hparts.receiver, hs, fun offset => ?_, fun _ call hcall => ?_⟩
    · cases hcall : constructor? t subject with
      | none => simp [Takes, edits, shouldEdits, hcall, hstart, hstop]
      | some call => simp [Takes, edits, shouldEdits, rule, hcall, hstart, hstop, or_comm]
    · obtain ⟨-, hchild, hmakes⟩ := constructor?_eq_some hcall
      exact ⟨hchild, hmakes, by simp [edits, shouldEdits, hcall]⟩

end Match

namespace Tree

/-! ## Conversions -/

theorem exists_takes_iff (os : List Match.Outcome) (offset : Nat) :
    (∃ o ∈ os, o.converted = true ∧ o.found.Takes t offset) ↔
      (os.flatMap (Match.Outcome.edits t)).any (·.covers offset) = true := by
  simp only [List.any_eq_true, List.mem_flatMap, Match.Outcome.mem_edits, Match.Takes]
  constructor
  · rintro ⟨o, ho, hconverted, e, he, hcovers⟩
    exact ⟨e, ⟨o, ho, hconverted, he⟩, hcovers⟩
  · rintro ⟨e, ⟨o, ho, hconverted, he⟩, hcovers⟩
    exact ⟨o, ho, hconverted, e, he, hcovers⟩

/-- A converted source is made of the texts of the edits that the matches have left, and of the bytes
that no converted match takes away, in order. -/
theorem exists_convert_pieces (t : Tree) (enabled : List Rule) (facts : Facts) :
    ∃ ps : List Revision.Piece,
      Utf8.encode (t.convert enabled facts).source =
        ps.flatMap (Revision.Piece.bytes (Utf8.encode t.source)) ∧
      (ps.filterMap Revision.Piece.edit?).Perm
        ((t.outcomes enabled facts).flatMap (Match.Outcome.edits t)) ∧
      (ps.filterMap Revision.Piece.offset?).Pairwise (· < ·) ∧
      ∀ offset, offset ∈ ps.filterMap Revision.Piece.offset? ↔
        offset < (Utf8.encode t.source).length ∧
          ¬ ∃ o ∈ t.outcomes enabled facts, o.converted = true ∧ o.found.Takes t offset := by
  have hsound : Revision.Sound t.source
      ((t.outcomes enabled facts).flatMap (Match.Outcome.edits t)) :=
    Match.outcomes_sound (Revision.sound_nil _) _
  have hrender := Revision.encode_render (r := ⟨t.source, _⟩) hsound
  have hperm := Revision.pieces_edits_perm hsound
  have hoffsets := Revision.pieces_offsets t.source
    ((t.outcomes enabled facts).flatMap (Match.Outcome.edits t))
  refine ⟨_, ?_, hperm, ?_, fun offset => ?_⟩
  · rw [convert_eq, progress_eq]
    exact hrender
  · rw [hoffsets]
    exact List.pairwise_lt_range.filter _
  · rw [hoffsets, List.mem_filter, List.mem_range, Utf8.encode_eq_bytes, Text.length_bytes,
      exists_takes_iff, Bool.not_eq_true', Bool.not_eq_true]

/-- Whatever the dump says of the places of its nodes, the search for the name of a call comes to its
end without a cut that fails; it finds the name, no later than the call ends, and passes over a gap
only. An expectation or a stub takes away this gap and the name, and the call that makes a block a
value where `expect` comes in its place. What is converted comes out as the texts of the edits and
all bytes of the source, in order, but those that a converted match takes away. -/
theorem convert_removes {path source dump : String} {t : Tree}
    (h : ofDump path source dump = .ok t) :
    (∀ id, Checked.selector? t id = .ok (t.selector? id)) ∧
    (∀ id s, t.selector? id = some s → t.NameAt id s) ∧
    ∀ enabled facts,
      let os := t.outcomes enabled facts
      (∀ o ∈ os, o.found.rule = .should ∨ o.found.rule = .stub →
        ∃ subject s, o.found.TakesName t subject s) ∧
      ∃ ps : List Revision.Piece,
        Utf8.encode (t.convert enabled facts).source =
          ps.flatMap (Revision.Piece.bytes (Utf8.encode source)) ∧
        (ps.filterMap Revision.Piece.edit?).Perm (os.flatMap (Match.Outcome.edits t)) ∧
        (ps.filterMap Revision.Piece.offset?).Pairwise (· < ·) ∧
        ∀ offset, offset ∈ ps.filterMap Revision.Piece.offset? ↔
          offset < (Utf8.encode source).length ∧
            ¬ ∃ o ∈ os, o.converted = true ∧ o.found.Takes t offset := by
  have ht := built_of_ofDump h
  have hsource := source_of_ofDump h
  refine ⟨Checked.selector?_eq_ok ht, fun id s => ht.nameAt, fun enabled facts => ⟨?_, ?_⟩⟩
  · exact fun o ho hrule => Match.exists_takesName (at?_of_mem_all (found_mem_all ho)) hrule
  · rw [← hsource]
    exact t.exists_convert_pieces enabled facts

/-- An expectation loses the line break before it, the operator and its name. -/
theorem convert_removes_dotted :
    ∃ t, ofDump "a.rb" "a\n .should b" "(send @0..12 (a @0..1) :should (b))" = .ok t ∧
      t.NameAt 2 ⟨4, 10, by decide⟩ ∧
      ∃ o ∈ t.outcomes [.should] .empty, o.found.rule = .should ∧
        ∀ offset, o.found.Takes t offset ↔ 1 ≤ offset ∧ offset < 10 := by
  have hcheck : (ofDump "a.rb" "a\n .should b" "(send @0..12 (a @0..1) :should (b))").map
      (fun t => (t.nodesInOrder, t.kind 2, t.methodName? 2, t.receiver? 2,
        (t.arguments 2).length, t.selector? 2, (t.range 0).stop, t.kind 0)) =
      .ok ([2, 0, 1], "send", some "should", some 0, 1, some ⟨4, 10, by decide⟩, 1, "a") := by
    cbv
  obtain ⟨t, hread, hcheck⟩ := map_eq_ok_iff.mp hcheck
  simp only [Prod.mk.injEq] at hcheck
  obtain ⟨hnodes, hkind, hname, hreceiver, harguments, hselector, hstop, hsubject⟩ := hcheck
  obtain ⟨-, hnames, hconverts⟩ := convert_removes hread
  obtain ⟨tail, hshould⟩ :=
    Match.exists_should? hkind hname rfl hreceiver harguments hselector
  have hmatch : Match.at? t [.should] 2 = some (.should 2 0 tail false) := by
    simp [Match.at?, Match.ofRule?, hshould]
  have hall : .should 2 0 tail false ∈ (t.outcomes [.should] .empty).map (·.found) := by
    rw [outcomes, Match.map_found_outcomes]
    exact List.mem_filterMap.mpr ⟨2, by simp [hnodes], hmatch⟩
  obtain ⟨o, ho, hfound⟩ := List.mem_map.mp hall
  have hrule : o.found.rule = .should := by rw [hfound]; rfl
  obtain ⟨subject, s, htakes⟩ := (hconverts [.should] .empty).1 o ho (.inl hrule)
  refine ⟨t, hread, hnames 2 _ hselector, o, ho, hrule, fun offset => ?_⟩
  have hnode : o.found.node = 2 := by rw [hfound]; rfl
  have hs := htakes.selector
  have hr := htakes.receiver
  rw [hnode, hselector] at hs
  rw [hnode, hreceiver] at hr
  have hmade : Match.constructor? t 0 = none := by
    simp [Match.constructor?, hsubject, guard]
  have hstart : t.searchStart 2 = 1 := (searchStart_of_receiver hreceiver).trans hstop
  rw [htakes.takes, hnode, hstart, ← Option.some.inj hs, ← Option.some.inj hr, hmade]
  simp

end Tree

end SpecUpgrade
