import Mathlib.Data.List.DropRight
import SpecUpgrade.Proofs.Bytes
import SpecUpgrade.Text.Position
import SpecUpgrade.Word

/-!
Lines and columns. A position counts the line feeds before an offset and the characters behind the
last of them, and on the boundaries of a text it tells offsets apart in their order.
-/

namespace SpecUpgrade.Position

open Text

/-- An earlier line, or the same line and an earlier column. -/
def Before (p q : Position) : Prop := p.line < q.line ∨ p.line = q.line ∧ p.col < q.col

theorem Before.trans {p q r : Position} (h : p.Before q) (h' : q.Before r) : p.Before r := by
  unfold Before at *
  omega

theorem before_advance (p : Position) (c : Char) : p.Before (p.advance c) := by
  unfold advance
  split
  · exact .inl (Nat.lt_succ_self _)
  · exact .inr ⟨rfl, Nat.lt_succ_self _⟩

/-- Every character moves the position on. -/
theorem before_foldl_advance (p : Position) {cs : List Char} (hne : cs ≠ []) :
    p.Before (cs.foldl advance p) := by
  induction cs generalizing p with
  | nil => exact absurd rfl hne
  | cons c cs ih =>
    cases cs with
    | nil => exact before_advance p c
    | cons d cs => exact (before_advance p c).trans (ih (p.advance c) (List.cons_ne_nil d cs))

/-- The position behind a text: its line feeds, and the characters behind the last of them. -/
theorem foldl_advance (cs : List Char) :
    cs.foldl advance origin =
      ⟨1 + cs.count '\n', 1 + (cs.rtakeWhile (· ≠ '\n')).length⟩ := by
  induction cs using List.reverseRecOn with
  | nil => rfl
  | append_singleton cs c ih =>
    rw [List.foldl_append, ih, List.foldl_cons, List.foldl_nil, advance, List.count_append,
      List.rtakeWhile_concat]
    by_cases hc : c = '\n'
    · simp [hc, Nat.add_assoc]
    · simp [hc, Nat.add_assoc]

theorem ofOffset_byteLength {text : String} {before after : List Char}
    (h : text.toList = before ++ after) :
    ofOffset text (byteLength before) =
      ⟨1 + before.count '\n', 1 + (before.rtakeWhile (· ≠ '\n')).length⟩ := by
  rw [ofOffset, h, takeTo_byteLength, foldl_advance]

/-- A character is passed as soon as the offset is behind its start. -/
theorem takeTo_inside (before after : List Char) {c : Char} {n : Nat} (hn : 0 < n)
    (hle : n ≤ c.utf8Size) :
    takeTo (byteLength before + n) (before ++ c :: after) = before ++ [c] := by
  induction before with
  | nil =>
    obtain ⟨n, rfl⟩ := Nat.exists_eq_add_one.mpr hn
    have hpast : n + 1 - c.utf8Size = 0 := by omega
    rw [byteLength, Nat.zero_add, List.nil_append, takeTo, hpast]
    cases after <;> rfl
  | cons d before ih =>
    obtain ⟨m, hm⟩ := Nat.exists_eq_add_one.mpr (Nat.add_pos_right (byteLength (d :: before)) hn)
    have hrest : m + 1 - d.utf8Size = byteLength before + n := by
      rw [← hm, byteLength]
      omega
    rw [hm, List.cons_append, takeTo, hrest, ih, List.cons_append]

/-- What stands before a boundary is the beginning of what stands before a later one. -/
theorem takeTo_of_lt {cs : List Char} {m n : Nat} (hm : isBoundary cs m = true)
    (hn : isBoundary cs n = true) (h : m < n) :
    ∃ more, more ≠ [] ∧ takeTo n cs = takeTo m cs ++ more := by
  have hlength : byteLength (takeTo m cs) < byteLength (takeTo n cs) := by
    rwa [byteLength_takeTo hm, byteLength_takeTo hn]
  have hm : takeTo m cs <+: cs := ⟨_, takeTo_append_dropTo m cs⟩
  have hn : takeTo n cs <+: cs := ⟨_, takeTo_append_dropTo n cs⟩
  rcases List.prefix_or_prefix_of_prefix hm hn with ⟨more, hmore⟩ | ⟨more, hmore⟩
  · refine ⟨more, ?_, hmore.symm⟩
    rintro rfl
    rw [← hmore, List.append_nil] at hlength
    omega
  · rw [← hmore, byteLength_append] at hlength
    omega

theorem ofOffset_before {text : String} {m n : Nat} (hm : isBoundary text.toList m = true)
    (hn : isBoundary text.toList n = true) (h : m < n) :
    (ofOffset text m).Before (ofOffset text n) := by
  obtain ⟨more, hne, hmore⟩ := takeTo_of_lt hm hn h
  rw [ofOffset, ofOffset, hmore, List.foldl_append]
  exact before_foldl_advance _ hne

/-- A line or a column is at most one more than the characters of the text. -/
theorem ofOffset_le (text : String) (offset : Nat) :
    (ofOffset text offset).line ≤ text.toList.length + 1 ∧
      (ofOffset text offset).col ≤ text.toList.length + 1 := by
  have hprefix : takeTo offset text.toList <+: text.toList :=
    ⟨_, takeTo_append_dropTo offset text.toList⟩
  have hlength := hprefix.length_le
  have hcount := (takeTo offset text.toList).count_le_length (a := '\n')
  have hline := (List.rtakeWhile_suffix (· ≠ '\n') (takeTo offset text.toList)).length_le
  rw [ofOffset, foldl_advance]
  simp only
  omega

/-- Both numbers of a position fit thirty-two bits unless the text is longer than that. -/
theorem ofOffset_lt_bound32 {text : String} (h : text.toList.length < Word.bound32 - 1)
    (offset : Nat) :
    (ofOffset text offset).line < Word.bound32 ∧ (ofOffset text offset).col < Word.bound32 := by
  obtain ⟨hline, hcol⟩ := ofOffset_le text offset
  omega

/-- The position of a boundary counts the line feeds before it and the characters behind the last of
them, so boundaries in order have positions in order. An offset inside a character has the position
of the next boundary, one past the end that of the end. Both numbers of a position fit thirty-two
bits unless the text is longer than that. -/
theorem ofOffset_exact (text : String) :
    (∀ offset, isBoundary text.toList offset = true →
      ∃ before after, text.toList = before ++ after ∧ byteLength before = offset ∧
        ofOffset text offset =
          ⟨1 + before.count '\n', 1 + (before.rtakeWhile (· ≠ '\n')).length⟩) ∧
    (∀ m n, isBoundary text.toList m = true → isBoundary text.toList n = true → m < n →
      (ofOffset text m).Before (ofOffset text n)) ∧
    (∀ before c after n, text.toList = before ++ c :: after → 0 < n → n < c.utf8Size →
      ofOffset text (byteLength before + n) = ofOffset text (byteLength before + c.utf8Size)) ∧
    (∀ offset, byteLength text.toList < offset →
      ofOffset text offset = ofOffset text (byteLength text.toList)) ∧
    (text.toList.length < Word.bound32 - 1 → ∀ offset,
      (ofOffset text offset).line < Word.bound32 ∧ (ofOffset text offset).col < Word.bound32) := by
  refine ⟨fun offset hoffset => ?_, fun m n => ofOffset_before, ?_, fun offset hoffset => ?_,
    ofOffset_lt_bound32⟩
  · have hsplit := (takeTo_append_dropTo offset text.toList).symm
    have hposition := ofOffset_byteLength hsplit
    rw [byteLength_takeTo hoffset] at hposition
    exact ⟨_, _, hsplit, byteLength_takeTo hoffset, hposition⟩
  · intro before c after n htext hn hlt
    rw [ofOffset, ofOffset, htext, takeTo_inside before after hn hlt.le,
      takeTo_inside before after c.utf8Size_pos le_rfl]
  · rw [ofOffset, ofOffset, takeTo_of_byteLength_le hoffset.le, takeTo_of_byteLength_le le_rfl]

/-- Two lines with characters of two bytes, and offsets on a boundary, in a character and past the
end. -/
theorem ofOffset_exact_multibyte :
    let text := "é\nxé"
    (isBoundary text.toList 4 = true ∧
      ∃ before after, text.toList = before ++ after ∧ byteLength before = 4 ∧
        ofOffset text 4 = ⟨1 + before.count '\n', 1 + (before.rtakeWhile (· ≠ '\n')).length⟩) ∧
    (isBoundary text.toList 2 = true ∧ isBoundary text.toList 3 = true ∧
      (ofOffset text 2).Before (ofOffset text 3)) ∧
    (text.toList = ['é', '\n', 'x'] ++ ['é'] ∧ 1 < ('é' : Char).utf8Size ∧
      ofOffset text (byteLength ['é', '\n', 'x'] + 1) =
        ofOffset text (byteLength ['é', '\n', 'x'] + ('é' : Char).utf8Size)) ∧
    (byteLength text.toList < 9 ∧ ofOffset text 9 = ofOffset text (byteLength text.toList)) ∧
    (text.toList.length < Word.bound32 - 1 ∧
      (ofOffset text 4).line < Word.bound32 ∧ (ofOffset text 4).col < Word.bound32) := by
  intro text
  obtain ⟨hcounts, hordered, hinside, hpast, hfits⟩ := ofOffset_exact text
  refine ⟨⟨by decide, hcounts 4 (by decide)⟩,
    ⟨by decide, by decide, hordered 2 3 (by decide) (by decide) (by decide)⟩,
    ⟨by decide, by decide, hinside _ _ [] 1 (by decide) (by decide) (by decide)⟩,
    ⟨by decide, hpast 9 (by decide)⟩, ⟨by decide, hfits (by decide) 4⟩⟩

example : ofOffset "é\nxé" 4 = ⟨2, 2⟩ ∧ ofOffset "é\nxé" 5 = ⟨2, 3⟩ := by decide

end SpecUpgrade.Position
