import Mathlib.Data.List.Basic
import SpecUpgrade.Proofs.Placement

/-!
The rendered text, offset by offset. One pass over the sorted edits gives the same text as asking
at every offset which edits come out there and whether the byte there is kept.
-/

namespace SpecUpgrade

/-- The offset lies in the range that the edit replaces. -/
def Edit.covers (e : Edit) (offset : Nat) : Bool :=
  e.side == .replace && decide (e.range.start ≤ offset) && decide (offset < e.range.stop)

theorem Edit.covers_iff (e : Edit) (offset : Nat) :
    e.covers offset = true ↔
      e.side = .replace ∧ e.region.start ≤ offset ∧ offset < e.region.stop := by
  unfold covers region
  cases hs : e.side <;> simp

namespace Revision

/-- What a rendered text is made of: texts of edits and bytes of the source. -/
inductive Piece where
  | text (edit : Edit)
  | byte (offset : Nat)

namespace Piece

def bytes (source : List UInt8) : Piece → List UInt8
  | text edit => Utf8.encode edit.text
  | byte offset => source[offset]?.toList

def edit? : Piece → Option Edit
  | text edit => some edit
  | byte _ => none

def offset? : Piece → Option Nat
  | text _ => none
  | byte offset => some offset

end Piece

/-- The byte at an offset, unless a replacement covers it. -/
def kept (length : Nat) (edits : List Edit) (offset : Nat) : List Piece :=
  if offset < length ∧ edits.any (·.covers offset) = false then [.byte offset] else []

/-- What comes out at an offset: texts, then the byte there if it is kept. -/
def piecesAt (length : Nat) (edits : List Edit) (offset : Nat) : List Piece :=
  (comingOut edits offset).map .text ++ kept length edits offset

def piecesIn (length : Nat) (edits : List Edit) (start stop : Nat) : List Piece :=
  (List.range' start (stop - start)).flatMap (piecesAt length edits)

/-- All that comes out, at every offset of the source and at its end. -/
def pieces (source : String) (edits : List Edit) : List Piece :=
  piecesIn (Text.byteLength source.toList) edits 0 (Text.byteLength source.toList + 1)

theorem range'_split {a b c : Nat} (hab : a ≤ b) (hbc : b ≤ c) :
    List.range' a (c - a) = List.range' a (b - a) ++ List.range' b (c - b) := by
  have h := List.range'_append_1 (s := a) (m := b - a) (n := c - b)
  rw [Nat.add_sub_cancel' hab] at h
  rw [h]
  congr 1
  omega

theorem piecesIn_append (length : Nat) (edits : List Edit) {a b c : Nat} (hab : a ≤ b)
    (hbc : b ≤ c) :
    piecesIn length edits a c = piecesIn length edits a b ++ piecesIn length edits b c := by
  rw [piecesIn, range'_split hab hbc, List.flatMap_append]
  rfl

/-! ## The pass over the sorted edits -/

theorem any_covers_perm {xs ys : List Edit} (h : xs.Perm ys) (offset : Nat) :
    xs.any (·.covers offset) = ys.any (·.covers offset) := by
  rw [Bool.eq_iff_iff, List.any_eq_true, List.any_eq_true]
  simp only [h.mem_iff]

/-- What comes out at an offset, of edits that are sorted already. -/
private def sweepAt (length : Nat) (edits : List Edit) (offset : Nat) : List Piece :=
  (edits.filter (·.position == offset)).map .text ++ kept length edits offset

private theorem piecesAt_eq_sweepAt (length : Nat) (edits : List Edit) (offset : Nat) :
    piecesAt length edits offset = sweepAt length (placed edits) offset := by
  rw [piecesAt, sweepAt, filter_placed]
  simp only [kept, any_covers_perm (placed_perm edits)]

private theorem kept_eq_of_before {length offset : Nat} {edits : List Edit}
    (hoffset : offset < length) (h : ∀ e ∈ edits, offset < e.position) :
    kept length edits offset = [.byte offset] := by
  have hany : edits.any (·.covers offset) = false := by
    rw [List.any_eq_false]
    intro e he
    have := h e he
    rw [Edit.covers_iff, ← Edit.position_eq_region_start]
    omega
  rw [kept, if_pos ⟨hoffset, hany⟩]

/-- Before the first edit the bytes are kept as they are. -/
private theorem sweepAt_of_before {length offset : Nat} {edits : List Edit}
    (hoffset : offset < length) (h : ∀ e ∈ edits, offset < e.position) :
    sweepAt length edits offset = [.byte offset] := by
  have hnone : edits.filter (·.position == offset) = [] := by
    rw [List.filter_eq_nil_iff]
    intro e he
    have := h e he
    simp only [beq_iff_eq]
    omega
  rw [sweepAt, hnone, kept_eq_of_before hoffset h]
  rfl

/-- From its own position on an edit adds its text and takes away what it replaces. -/
private theorem sweepAt_cons {length offset : Nat} {e : Edit} {es : List Edit}
    (hes : ∀ f ∈ es, e.region.stop ≤ f.position) :
    sweepAt length (e :: es) offset =
      (if offset = e.position then [.text e] else []) ++
        if e.position ≤ offset ∧ offset < e.region.stop then [] else sweepAt length es offset := by
  by_cases hin : e.position ≤ offset ∧ offset < e.region.stop
  · -- only a replacement has an inside, and nothing else comes out there
    have hside : e.side = .replace := by
      rw [Edit.position_eq_region_start] at hin
      exact Edit.side_eq_replace (by omega)
    have hnone : es.filter (·.position == offset) = [] := by
      rw [List.filter_eq_nil_iff]
      intro f hf
      have := hes f hf
      simp only [beq_iff_eq]
      omega
    have hcovers : e.covers offset = true := by
      rw [Edit.covers_iff, ← Edit.position_eq_region_start]
      exact ⟨hside, hin⟩
    by_cases hp : offset = e.position
    · subst hp
      simp [sweepAt, kept, hnone, hcovers, hin.2]
    · have hp' : ¬ e.position = offset := fun h => hp h.symm
      simp [sweepAt, kept, hnone, hcovers, hin, hp, hp']
  · have hcovers : e.covers offset = false := by
      rw [Bool.eq_false_iff, Ne, Edit.covers_iff, ← Edit.position_eq_region_start]
      exact fun h => hin h.2
    by_cases hp : offset = e.position
    · subst hp
      rw [if_neg hin]
      simp [sweepAt, kept, hcovers]
    · have hp' : ¬ e.position = offset := fun h => hp h.symm
      rw [if_neg hin]
      simp [sweepAt, kept, hcovers, hp, hp']

theorem bytes_kept (source : List UInt8) (start count : Nat) :
    (List.range' start count).flatMap (fun offset => source[offset]?.toList) =
      (source.drop start).take count := by
  induction count generalizing start with
  | zero => simp
  | succ count ih =>
    rw [List.range'_succ, List.flatMap_cons, ih]
    cases hget : source[start]? with
    | none =>
      have hlen := List.getElem?_eq_none_iff.mp hget
      simp [List.drop_eq_nil_of_le hlen, List.drop_eq_nil_of_le (Nat.le_succ_of_le hlen)]
    | some b =>
      obtain ⟨hlt, rfl⟩ := List.getElem?_eq_some_iff.mp hget
      rw [List.drop_eq_getElem_cons hlt, List.take_succ_cons]
      rfl

/-- The sweep over a stretch before the first edit copies it. -/
private theorem bytes_sweep_before {cs : List Char} {a b : Nat} {edits : List Edit}
    (ha : Text.isBoundary cs a = true) (hb : Text.isBoundary cs b = true) (hab : a ≤ b)
    (h : ∀ e ∈ edits, b ≤ e.position) :
    ((List.range' a (b - a)).flatMap (sweepAt (Text.byteLength cs) edits)).flatMap
        (Piece.bytes (Text.bytes cs)) = Text.bytes (Text.slice cs a b) := by
  have hlen := Text.le_byteLength_of_isBoundary hb
  rw [Text.bytes_slice ha hb hab, ← bytes_kept, List.flatMap_assoc]
  apply List.flatMap_congr
  intro offset hoffset
  have hlt : offset < b := by
    have := List.mem_range'_1.mp hoffset
    omega
  rw [sweepAt_of_before (by omega) fun e he => Nat.lt_of_lt_of_le hlt (h e he)]
  simp [Piece.bytes]

/-- At its position an edit comes out, and the sweep goes on where the edit ends. -/
private theorem sweep_cons {length stop : Nat} {e : Edit} {es : List Edit}
    (hes : ∀ f ∈ es, e.region.stop ≤ f.position) (hstop : e.region.stop < stop) :
    (List.range' e.position (stop - e.position)).flatMap (sweepAt length (e :: es)) =
      .text e :: (List.range' e.region.stop (stop - e.region.stop)).flatMap
        (sweepAt length es) := by
  have hle := e.position_le_region_stop
  by_cases hpoint : e.position = e.region.stop
  · have hcount : stop - e.region.stop = stop - e.region.stop - 1 + 1 := by omega
    rw [hpoint, hcount, List.range'_succ, List.flatMap_cons, List.flatMap_cons, sweepAt_cons hes,
      ← hpoint, if_pos rfl, if_neg (by omega)]
    rw [List.append_assoc, List.singleton_append]
    congr 2
    apply List.flatMap_congr
    intro offset hoffset
    have := List.mem_range'_1.mp hoffset
    rw [sweepAt_cons hes, if_neg (by omega), if_neg (by omega), List.nil_append]
  · have hcount : e.region.stop - e.position = e.region.stop - e.position - 1 + 1 := by omega
    have hsplit : List.range' e.position (stop - e.position) =
        e.position :: List.range' (e.position + 1) (e.region.stop - e.position - 1) ++
          List.range' e.region.stop (stop - e.region.stop) := by
      rw [← List.range'_succ, ← hcount]
      exact range'_split hle (by omega)
    have hinside : (List.range' (e.position + 1) (e.region.stop - e.position - 1)).flatMap
        (sweepAt length (e :: es)) = [] := by
      rw [List.flatMap_eq_nil_iff]
      intro offset hoffset
      have := List.mem_range'_1.mp hoffset
      rw [sweepAt_cons hes, if_neg (by omega), if_pos (by omega)]
      rfl
    rw [hsplit, List.flatMap_append, List.flatMap_cons, hinside, sweepAt_cons hes, if_pos rfl,
      if_pos (by omega)]
    simp only [List.append_nil, List.singleton_append, List.cons.injEq, true_and]
    apply List.flatMap_congr
    intro offset hoffset
    have := List.mem_range'_1.mp hoffset
    rw [sweepAt_cons hes, if_neg (by omega), if_neg (by omega), List.nil_append]

theorem region_boundary {source : String} {e : Edit} (h : e.range.Fits source) :
    Text.isBoundary source.toList e.position = true ∧
      Text.isBoundary source.toList e.region.stop = true := by
  unfold Edit.position Edit.region
  cases e.side with
  | before => exact ⟨h.start_boundary, h.start_boundary⟩
  | after => exact ⟨h.stop_boundary, h.stop_boundary⟩
  | replace => exact ⟨h.start_boundary, h.stop_boundary⟩

/-- The pass goes on where an edit ends. -/
private theorem next_cursor (e : Edit) :
    (match e.side with
      | .replace => max e.position e.range.stop
      | _ => e.position) = e.region.stop := by
  have hrange := e.range.start_le_stop
  unfold Edit.position Edit.region
  cases e.side with
  | before => rfl
  | after => rfl
  | replace => exact Nat.max_eq_right hrange

/-- An edit that stands at the cursor or behind it: the pass copies up to it, writes its text and
goes on where it ends. -/
theorem renderFrom_cons {cs : List Char} {cursor : Nat} {e : Edit} {es : List Edit}
    (h : cursor ≤ e.position) :
    renderFrom cs cursor (e :: es) =
      Text.slice cs cursor e.position ++ e.text.toList ++ renderFrom cs e.region.stop es := by
  simp only [renderFrom, Nat.max_eq_right h]
  congr 2
  exact next_cursor e

/-- The cursor of the pass stands at the end of what is done, before all edits that are left. -/
private theorem bytes_renderFrom {source : String} {cursor : Nat} {edits : List Edit}
    (hfits : ∀ e ∈ edits, e.range.Fits source)
    (hsorted : edits.Pairwise fun a b => a.region.stop ≤ b.position)
    (hboundary : Text.isBoundary source.toList cursor = true)
    (hcursor : ∀ e ∈ edits, cursor ≤ e.position) :
    Text.bytes (renderFrom source.toList cursor edits) =
      ((List.range' cursor (Text.byteLength source.toList + 1 - cursor)).flatMap
        (sweepAt (Text.byteLength source.toList) edits)).flatMap
          (Piece.bytes (Text.bytes source.toList)) := by
  induction edits generalizing cursor with
  | nil =>
    have hlen := Text.le_byteLength_of_isBoundary hboundary
    have hend :
        sweepAt (Text.byteLength source.toList) [] (Text.byteLength source.toList) = [] := by
      simp [sweepAt, kept]
    rw [range'_split hlen (Nat.le_succ _), List.flatMap_append, List.flatMap_append,
      bytes_sweep_before hboundary (Text.isBoundary_length _) hlen (by simp),
      Text.slice_to_end hboundary]
    simp [renderFrom, hend]
  | cons e es ih =>
    obtain ⟨hes, hsorted⟩ := List.pairwise_cons.mp hsorted
    have hpos := hcursor e (by simp)
    obtain ⟨hposition, hregion⟩ := region_boundary (hfits e (by simp))
    have hstop := Text.le_byteLength_of_isBoundary hregion
    have hle := e.position_le_region_stop
    have hbehind : ∀ f ∈ e :: es, e.position ≤ f.position := by
      intro f hf
      rcases List.mem_cons.mp hf with rfl | hf
      · exact Nat.le_refl _
      · exact Nat.le_trans hle (hes f hf)
    rw [renderFrom_cons hpos, range'_split hpos (by omega), List.flatMap_append,
      List.flatMap_append, bytes_sweep_before hboundary hposition hpos hbehind,
      sweep_cons hes (by omega), List.flatMap_cons, Text.bytes_append, Text.bytes_append,
      ih (fun f hf => hfits f (by simp [hf])) hsorted hregion hes]
    simp [Piece.bytes, Utf8.encode_eq_bytes]

/-- The rendered text of sound edits is what comes out offset by offset. -/
theorem encode_render {r : Revision} (h : Sound r.source r.edits) :
    Utf8.encode r.render = (pieces r.source r.edits).flatMap
      (Piece.bytes (Utf8.encode r.source)) := by
  have hfits : ∀ e ∈ placed r.edits, e.range.Fits r.source :=
    (sound_perm (placed_perm r.edits).symm h).fits
  have hrender := bytes_renderFrom hfits (placed_pairwise h) (Text.isBoundary_zero _) (by simp)
  rw [render, ← placed, Utf8.encode_ofList, Utf8.encode_eq_bytes]
  simpa only [pieces, piecesIn, funext (piecesAt_eq_sweepAt _ r.edits)] using hrender

/-! ## Cuts of the source -/

/-- The source from the cursor up to a position behind it, and where the cursor then stands. -/
def copyTo? (cs : List Char) (cursor position : Nat) : Option (List Char × Nat) :=
  if cursor < position then (Text.slice? cs cursor position).map (·, position)
  else some ([], cursor)

/-- The pass with every cut of the source checked. -/
def renderFrom? (cs : List Char) (cursor : Nat) : List Edit → Option (List Char)
  | [] => Text.slice? cs cursor (Text.byteLength cs)
  | e :: es => do
    let (copied, reached) ← copyTo? cs cursor e.position
    let next := match e.side with
      | .replace => max reached e.range.stop
      | _ => reached
    let rest ← renderFrom? cs next es
    return copied ++ e.text.toList ++ rest

/-- The rendered text, if no cut of the source is out of range or inside a character. -/
def render? (r : Revision) : Option String :=
  (renderFrom? r.source.toList 0 (r.edits.mergeSort Edit.comesBefore)).map String.ofList

private theorem copyTo?_eq_some {cs : List Char} {cursor position : Nat}
    (hcursor : Text.isBoundary cs cursor = true) (hposition : Text.isBoundary cs position = true)
    (h : cursor ≤ position) :
    copyTo? cs cursor position = some (Text.slice cs cursor position, position) := by
  unfold copyTo?
  split
  · rw [Text.slice?_eq_some hcursor hposition h, Option.map_some]
  · have heq : cursor = position := by omega
    simp [heq, Text.slice, Text.takeTo]

private theorem renderFrom?_eq_some {source : String} {cursor : Nat} {edits : List Edit}
    (hfits : ∀ e ∈ edits, e.range.Fits source)
    (hsorted : edits.Pairwise fun a b => a.region.stop ≤ b.position)
    (hboundary : Text.isBoundary source.toList cursor = true)
    (hcursor : ∀ e ∈ edits, cursor ≤ e.position) :
    renderFrom? source.toList cursor edits = some (renderFrom source.toList cursor edits) := by
  induction edits generalizing cursor with
  | nil =>
    rw [renderFrom?, renderFrom, Text.slice?_eq_some hboundary (Text.isBoundary_length _)
      (Text.le_byteLength_of_isBoundary hboundary), Text.slice_to_end hboundary]
  | cons e es ih =>
    obtain ⟨hes, hsorted⟩ := List.pairwise_cons.mp hsorted
    have hpos := hcursor e (by simp)
    obtain ⟨hposition, hregion⟩ := region_boundary (hfits e (by simp))
    rw [renderFrom_cons hpos, renderFrom?, copyTo?_eq_some hboundary hposition hpos]
    simp only [Option.bind_eq_bind, Option.bind_some, next_cursor,
      ih (fun f hf => hfits f (by simp [hf])) hsorted hregion hes]
    rfl

/-- Rendering sound edits cuts the source only at boundaries. -/
theorem render?_eq_some {r : Revision} (h : Sound r.source r.edits) :
    r.render? = some r.render := by
  have hfits : ∀ e ∈ placed r.edits, e.range.Fits r.source :=
    (sound_perm (placed_perm r.edits).symm h).fits
  have hpass := renderFrom?_eq_some hfits (placed_pairwise h) (Text.isBoundary_zero _) (by simp)
  rw [render?, render]
  exact congrArg (Option.map String.ofList) hpass

/-! ## What the pieces hold -/

private theorem flatMap_filter_perm {α : Type} (key : α → Nat) (l : List α) (n : Nat) :
    ((List.range n).flatMap fun k => l.filter (key · == k)).Perm
      (l.filter fun a => decide (key a < n)) := by
  induction n with
  | zero => simp
  | succ n ih =>
    have hlow : (l.filter fun a => decide (key a < n + 1)).filter (fun a => decide (key a < n)) =
        l.filter fun a => decide (key a < n) := by
      rw [List.filter_filter]
      apply List.filter_congr
      intro a _
      rw [← Bool.decide_and, decide_eq_decide]
      omega
    have hhigh : (l.filter fun a => decide (key a < n + 1)).filter
        (fun a => !decide (key a < n)) = l.filter (key · == n) := by
      rw [List.filter_filter]
      apply List.filter_congr
      intro a _
      rw [Bool.eq_iff_iff]
      simp only [Bool.and_eq_true, Bool.not_eq_true', decide_eq_false_iff_not, decide_eq_true_eq,
        beq_iff_eq]
      omega
    have hparts := List.filter_append_perm (fun a => decide (key a < n))
      (l.filter fun a => decide (key a < n + 1))
    rw [hlow, hhigh] at hparts
    rw [List.range_succ, List.flatMap_append, List.flatMap_singleton]
    exact (ih.append_right _).trans hparts

/-- Every edit comes out exactly once. -/
theorem pieces_edits_perm {source : String} {edits : List Edit} (h : Sound source edits) :
    ((pieces source edits).filterMap Piece.edit?).Perm edits := by
  have hat : ∀ offset, (piecesAt (Text.byteLength source.toList) edits offset).filterMap
      Piece.edit? = (placed edits).filter (·.position == offset) := by
    intro offset
    rw [filter_placed, piecesAt, List.filterMap_append, List.filterMap_map]
    have hkept :
        (kept (Text.byteLength source.toList) edits offset).filterMap Piece.edit? = [] := by
      unfold kept
      split <;> rfl
    have htexts : Piece.edit? ∘ Piece.text = some := rfl
    rw [hkept, htexts, List.filterMap_some, List.append_nil]
  have hall : (placed edits).filter
      (fun e => decide (e.position < Text.byteLength source.toList + 1)) = placed edits := by
    rw [List.filter_eq_self]
    intro e he
    have hfits := h.fits e ((placed_perm edits).mem_iff.mp he)
    have := Text.le_byteLength_of_isBoundary (region_boundary hfits).1
    simp only [decide_eq_true_eq]
    omega
  have hperm := flatMap_filter_perm Edit.position (placed edits) (Text.byteLength source.toList + 1)
  rw [hall] at hperm
  rw [pieces, piecesIn, List.filterMap_flatMap, funext hat, Nat.sub_zero, ← List.range_eq_range']
  exact hperm.trans (placed_perm edits)

/-- The bytes that no replacement covers come out in order. -/
theorem pieces_offsets (source : String) (edits : List Edit) :
    (pieces source edits).filterMap Piece.offset? =
      (List.range (Text.byteLength source.toList)).filter
        fun offset => !edits.any (·.covers offset) := by
  have hat : ∀ offset, (piecesAt (Text.byteLength source.toList) edits offset).filterMap
      Piece.offset? = if offset < Text.byteLength source.toList ∧
        edits.any (·.covers offset) = false then [offset] else [] := by
    intro offset
    have htexts : ((comingOut edits offset).map Piece.text).filterMap Piece.offset? = [] := by
      simp [List.filterMap_map, Piece.offset?]
    rw [piecesAt, List.filterMap_append, htexts, List.nil_append, kept]
    split <;> rfl
  rw [pieces, piecesIn, List.filterMap_flatMap, funext hat, Nat.sub_zero, ← List.range_eq_range',
    List.range_succ, List.flatMap_append, List.flatMap_singleton, if_neg (by omega),
    List.append_nil]
  conv_rhs => rw [← List.flatMap_singleton' (List.range _), List.filter_flatMap]
  apply List.flatMap_congr
  intro offset hoffset
  have hlt := List.mem_range.mp hoffset
  cases hcovered : edits.any (·.covers offset) <;> simp [hcovered, hlt]

/-! ## Texts without replacements -/

/-- The texts among pieces, each with the number of bytes that come before it. -/
def insertedFrom (count : Nat) : List Piece → List (Nat × String)
  | [] => []
  | .text e :: ps => (count, e.text) :: insertedFrom count ps
  | .byte _ :: ps => insertedFrom (count + 1) ps

def withoutTexts (ps : List Piece) : List Piece := ps.filter (·.edit?.isNone)

theorem insertedFrom_texts (count : Nat) (edits : List Edit) (ps : List Piece) :
    insertedFrom count (edits.map .text ++ ps) =
      edits.map (fun e => (count, e.text)) ++ insertedFrom count ps := by
  induction edits with
  | nil => rfl
  | cons e edits ih => rw [List.map_cons, List.cons_append, insertedFrom, ih]; rfl

theorem withoutTexts_eq (ps : List Piece) :
    withoutTexts ps = (ps.filterMap Piece.offset?).map .byte := by
  induction ps with
  | nil => rfl
  | cons p ps ih =>
    cases p with
    | text e => exact ih
    | byte offset => exact congrArg (List.cons (Piece.byte offset)) ih

theorem position_of_mem_comingOut {edits : List Edit} {offset : Nat} {e : Edit}
    (h : e ∈ comingOut edits offset) : e.position = offset := by
  rw [← filter_placed] at h
  simpa using (List.mem_filter.mp h).2

section Insertions
variable {edits : List Edit}

theorem any_covers_of_insertions (h : ∀ e ∈ edits, e.side ≠ .replace) (offset : Nat) :
    edits.any (·.covers offset) = false := by
  rw [List.any_eq_false]
  intro e he
  rw [Edit.covers_iff]
  exact fun hcovers => h e he hcovers.1

/-- As long as every byte is kept, a text has as many bytes before it as its position says. -/
theorem insertedFrom_range' (h : ∀ e ∈ edits, e.side ≠ .replace) {length start count : Nat}
    (hle : start + count ≤ length + 1) :
    insertedFrom start ((List.range' start count).flatMap (piecesAt length edits)) =
      (((List.range' start count).flatMap (piecesAt length edits)).filterMap Piece.edit?).map
        fun e => (e.position, e.text) := by
  induction count generalizing start with
  | zero => rfl
  | succ count ih =>
    have htexts : (comingOut edits start).map (fun e => (start, e.text)) =
        (comingOut edits start).map fun e => (e.position, e.text) :=
      List.map_congr_left fun e he => by rw [position_of_mem_comingOut he]
    have hedits : ((comingOut edits start).map Piece.text).filterMap Piece.edit? =
        comingOut edits start := by
      rw [List.filterMap_map, show Piece.edit? ∘ Piece.text = some from rfl, List.filterMap_some]
    rw [List.range'_succ, List.flatMap_cons, piecesAt, List.append_assoc, insertedFrom_texts,
      List.filterMap_append, List.map_append, hedits, htexts]
    congr 1
    rw [kept, any_covers_of_insertions h]
    by_cases hlt : start < length
    · rw [if_pos ⟨hlt, rfl⟩]
      exact ih (by omega)
    · -- behind the last byte only its end is left
      have hcount : count = 0 := by omega
      simp [hlt, hcount, insertedFrom]

/-- Insertions alone come out where they belong. -/
theorem insertedFrom_pieces {source : String} (hsound : Sound source edits)
    (h : ∀ e ∈ edits, e.side ≠ .replace) :
    (insertedFrom 0 (pieces source edits)).Perm (edits.map fun e => (e.position, e.text)) := by
  have hinserted : insertedFrom 0 (pieces source edits) =
      ((pieces source edits).filterMap Piece.edit?).map fun e => (e.position, e.text) :=
    insertedFrom_range' h (by omega)
  rw [hinserted]
  exact (pieces_edits_perm hsound).map _

theorem offsets_of_insertions (source : String) (h : ∀ e ∈ edits, e.side ≠ .replace) :
    (pieces source edits).filterMap Piece.offset? =
      List.range (Text.byteLength source.toList) := by
  rw [pieces_offsets, List.filter_eq_self]
  intro offset _
  rw [any_covers_of_insertions h, Bool.not_false]

end Insertions

/-- When every byte comes out, the source is what is left without the texts. -/
theorem bytes_withoutTexts {source : String} {ps : List Piece}
    (h : ps.filterMap Piece.offset? = List.range (Text.byteLength source.toList)) :
    (withoutTexts ps).flatMap (Piece.bytes (Utf8.encode source)) = Utf8.encode source := by
  rw [withoutTexts_eq, h, List.flatMap_map, List.range_eq_range']
  change (List.range' 0 _).flatMap (fun offset => (Utf8.encode source)[offset]?.toList) = _
  rw [bytes_kept, List.drop_zero, Utf8.encode_eq_bytes, ← Text.length_bytes, List.take_length]

/-- Without edits the source comes back. -/
theorem render_of_no_edits {r : Revision} (h : r.edits = []) : r.render = r.source := by
  simp [render, h, renderFrom, Text.dropTo]

/-- After any calls the accepted edits fit the source and stand side by side, rendering them cuts
the source only at boundaries, and the text that comes out is the positional one: every accepted
text stands in it once and every byte that is not replaced stays in its place. -/
theorem afterCalls_render (source : String) (calls : List Call) :
    let edits := (afterCalls source calls).edits
    let text := (afterCalls source calls).render
    (∀ e ∈ edits, e.range.Fits source) ∧ edits.Pairwise Edit.Apart ∧
      (afterCalls source calls).render? = some text ∧
      Utf8.encode text = (pieces source edits).flatMap (Piece.bytes (Utf8.encode source)) ∧
      ((pieces source edits).filterMap Piece.edit?).Perm edits ∧
      (pieces source edits).filterMap Piece.offset? =
        (List.range (Text.byteLength source.toList)).filter
          (fun offset => !edits.any (·.covers offset)) ∧
      (edits = [] → text = source) := by
  have hsource := afterCalls_source source calls
  have hsound := afterCalls_sound source calls
  have hsound' : Sound (afterCalls source calls).source (afterCalls source calls).edits := by
    rw [hsource]
    exact hsound
  have hencode := encode_render hsound'
  rw [hsource] at hencode
  exact ⟨hsound.fits, hsound.apart, render?_eq_some hsound', hencode, pieces_edits_perm hsound,
    pieces_offsets source _, fun hnone => (render_of_no_edits hnone).trans hsource⟩

/-- A wrap beside a replacement, with a removal refused that would cut the replaced byte and a
character. -/
theorem afterCalls_render_wrapped :
    Edit.insertBefore ⟨1, 3, by decide⟩ "<" ∈
        (afterCalls "aéb" [.replace ⟨0, 1, by decide⟩ "x", .wrap ⟨1, 3, by decide⟩ "<" ">",
          .remove ⟨0, 2, by decide⟩]).edits ∧
      Span.Fits ⟨1, 3, by decide⟩ "aéb" :=
  have hmem : Edit.insertBefore ⟨1, 3, by decide⟩ "<" ∈
      (afterCalls "aéb" [.replace ⟨0, 1, by decide⟩ "x", .wrap ⟨1, 3, by decide⟩ "<" ">",
        .remove ⟨0, 2, by decide⟩]).edits := by decide
  ⟨hmem, (afterCalls_render "aéb" _).1 _ hmem⟩

end Revision
end SpecUpgrade
