import SpecUpgrade.Proofs.Derivation

/-!
Symbols without quotes. The writer of dumps quotes a symbol that holds white space of the ASCII range,
and the reader ends a bare symbol at white space of any kind, so some symbols are not read back.
-/

namespace SpecUpgrade

namespace Dump

/-- What the writer of dumps leaves without quotes: no white space of the ASCII range, no
parenthesis, no quote and no colon. -/
def UnquotedChar (c : Char) : Prop :=
  c ∉ [' ', '\t', '\n', '\x0b', '\x0c', '\r'] ∧ c ∉ ['(', ')', '"', ':']

theorem UnquotedChar.bareChar {c : Char} (h : UnquotedChar c) (hblank : Text.isBlank c = false) :
    BareChar c := by
  obtain ⟨-, hmark⟩ := h
  simp only [List.mem_cons, List.not_mem_nil, or_false, not_or] at hmark
  exact ⟨hblank, hmark.1, hmark.2.1, hmark.2.2.1⟩

theorem UnquotedChar.ne_quote {c : Char} (h : UnquotedChar c) : c ≠ '"' := by
  rintro rfl
  exact h.2 (by decide)

theorem UnquotedChar.not_isBlank {c : Char} (h : UnquotedChar c) : Json.isBlank c = false := by
  obtain ⟨hblank, -⟩ := h
  simp only [List.mem_cons, List.not_mem_nil, or_false, not_or] at hblank
  simp [Json.isBlank, hblank]

/-! ## White space outside of literals -/

/-- White space of the text stands between tokens: it is a space, a tab or the end of a line. -/
def Spaced (cs : List Char) : Prop := ∀ c ∈ cs, Text.isBlank c = true → Json.isBlank c = true

theorem Blanks.spaced {ws : List Char} (h : Blanks ws) : Spaced ws := fun c hc _ => h c hc

theorem Spaced.append {xs ys : List Char} (hxs : Spaced xs) (hys : Spaced ys) :
    Spaced (xs ++ ys) := by
  intro c hc
  rcases List.mem_append.mp hc with hc | hc
  · exact hxs c hc
  · exact hys c hc

theorem Spaced.cons {c : Char} {cs : List Char} (hc : Text.isBlank c = false) (h : Spaced cs) :
    Spaced (c :: cs) := by
  intro d hd
  rcases List.mem_cons.mp hd with rfl | hd
  · simp [hc]
  · exact h d hd

theorem spaced_nil : Spaced [] := nofun

theorem spaced_of_not_isBlank {cs : List Char} (h : ∀ c ∈ cs, Text.isBlank c = false) :
    Spaced cs := by
  intro c hc hblank
  rw [h c hc] at hblank
  cases hblank

theorem not_isBlank_of_isAlphanum {c : Char} (h : c.isAlphanum = true) :
    Text.isBlank c = false := by
  have hrange : 0x30 ≤ c.toNat ∧ c.toNat ≤ 0x7a := by
    simp only [Char.isAlphanum, Char.isAlpha, Char.isUpper, Char.isLower, Char.isDigit,
      Bool.or_eq_true, Bool.and_eq_true, decide_eq_true_eq, ge_iff_le, UInt32.le_iff_toNat_le] at h
    rw [← Char.toNat_val]
    have hbounds : ('A' : Char).val.toNat = 0x41 ∧ ('Z' : Char).val.toNat = 0x5a ∧
        ('a' : Char).val.toNat = 0x61 ∧ ('z' : Char).val.toNat = 0x7a ∧
        ('0' : Char).val.toNat = 0x30 ∧ ('9' : Char).val.toNat = 0x39 := by decide
    omega
  simp only [Text.isBlank, Bool.or_eq_false_iff, Bool.and_eq_false_iff, decide_eq_false_iff_not,
    beq_eq_false_iff_ne]
  omega

theorem spaced_of_isDigit {cs : List Char} (h : ∀ c ∈ cs, c.isDigit = true) : Spaced cs :=
  spaced_of_not_isBlank fun c hc => not_isBlank_of_isAlphanum (by simp [Char.isAlphanum, h c hc])

theorem Marked.spaced {mark : Char} {bounds : Option Bounds} {cs : List Char}
    (h : Marked mark bounds cs) (hmark : Text.isBlank mark = false) : Spaced cs := by
  cases h with
  | missing => exact spaced_nil
  | given hws hfront hstart hback hstop =>
    have hback := ((spaced_of_isDigit hback.isDigit).cons (c := '.') (by decide)).cons (c := '.')
      (by decide)
    exact hws.spaced.append (((spaced_of_isDigit hfront.isDigit).append hback).cons hmark)

theorem WrittenHead.spaced {head : Head} {cs : List Char} (h : WrittenHead head cs) :
    Spaced cs := by
  cases h with
  | mk hws hne hkind hrange hheredoc =>
    refine Spaced.append (Spaced.append (hws.spaced.append (spaced_of_not_isBlank ?_))
      (hrange.spaced (by decide))) (hheredoc.spaced (by decide))
    intro c hc
    rcases hkind c hc with hc | rfl
    · exact not_isBlank_of_isAlphanum hc
    · decide

theorem WrittenExponent.spaced {e : Int} {cs : List Char} (h : WrittenExponent e cs) :
    Spaced cs := by
  have hmark : ∀ {e : Char}, e = 'e' ∨ e = 'E' → Text.isBlank e = false := by
    rintro e (rfl | rfl) <;> decide
  cases h with
  | missing => exact spaced_nil
  | unsigned he hcs => exact (spaced_of_isDigit hcs.isDigit).cons (hmark he)
  | positive he hcs =>
    exact ((spaced_of_isDigit hcs.isDigit).cons (by decide)).cons (hmark he)
  | negative he hcs =>
    exact ((spaced_of_isDigit hcs.isDigit).cons (by decide)).cons (hmark he)

theorem WrittenFraction.spaced {digits cs : List Char} (h : WrittenFraction digits cs) :
    Spaced cs := by
  cases h with
  | missing => exact spaced_nil
  | given hdigits => exact (spaced_of_isDigit hdigits).cons (by decide)

theorem spaced_sign (negative : Bool) : Spaced (sign negative) := by
  cases negative with
  | true => exact spaced_nil.cons (by decide)
  | false => exact spaced_nil

theorem WrittenLiteral.spaced {l : Literal} {cs : List Char} (h : WrittenLiteral l cs)
    (hquote : '"' ∉ cs) : Spaced cs := by
  have hword : ∀ {word : List Char}, (∀ c ∈ word, c.isAlphanum = true) → Spaced word :=
    fun h => spaced_of_not_isBlank fun c hc => not_isBlank_of_isAlphanum (h c hc)
  cases h with
  | nil => exact hword (by simp)
  | yes => exact hword (by simp)
  | no => exact hword (by simp)
  | int hcs => exact spaced_of_isDigit hcs.isDigit
  | negative hcs => exact (spaced_of_isDigit hcs.isDigit).cons (by decide)
  | bare hne hname => exact (spaced_of_not_isBlank fun c hc => (hname c hc).1).cons (by decide)
  | quoted => exact absurd (by simp [quote]) hquote
  | str => exact absurd (by simp [quote]) hquote

/-- Only between quotes a literal holds white space. -/
theorem LooseLiteral.spaced {bare : List Char → Prop} {l : Literal} {cs : List Char}
    (h : LooseLiteral bare l cs) (hquote : '"' ∉ cs) : Spaced cs := by
  cases h with
  | written h => exact h.spaced hquote
  | real hne hwhole hfraction hpower =>
    exact (spaced_sign _).append
      (((spaced_of_isDigit hwhole).append hfraction.spaced).append hpower.spaced)
  | bare hne hname => exact (spaced_of_not_isBlank fun c hc => (hname c hc).1).cons (by decide)

theorem spaced_parenthesize {head children close : List Char} (hhead : Spaced head)
    (hchildren : Spaced children) (hclose : Blanks close) :
    Spaced (parenthesize head children close) :=
  (((hhead.append hchildren).append hclose.spaced).append (spaced_nil.cons (by decide))).cons
    (by decide)

theorem LooseTerms.spaced {bare : List Char → Prop} {terms : List Term} {cs : List Char}
    (h : LooseTerms bare terms cs) (hquote : '"' ∉ cs) : Spaced cs := by
  induction h with
  | nil => exact spaced_nil
  | literal hws hl _ ih =>
    simp only [List.mem_append, not_or] at hquote
    exact (hws.spaced.append (hl.spaced hquote.1.2)).append (ih hquote.2)
  | node hws hhead _ hclose _ ihchildren ihmore =>
    simp only [parenthesize, List.mem_append, List.mem_cons, not_or] at hquote
    exact (hws.spaced.append (spaced_parenthesize hhead.spaced
      (ihchildren hquote.1.2.2.1.1.2) hclose)).append (ihmore hquote.2)

/-- A dump without quotes that can be read holds no white space but between tokens. -/
theorem LooseDump.spaced {bare : List Char → Prop} {head : Head} {children : List Term}
    {cs : List Char} (h : LooseDump bare head children cs) (hquote : '"' ∉ cs) : Spaced cs := by
  cases h with
  | mk hbefore hhead hchildren hclose hafter =>
    simp only [parenthesize, List.mem_append, List.mem_cons, not_or] at hquote
    exact (hbefore.spaced.append (spaced_parenthesize hhead.spaced
      (hchildren.spaced hquote.1.2.2.1.1.2) hclose)).append hafter.spaced

/-! ## Reading a symbol without quotes -/

section Unquoted

variable {name : String} {rest : List Char}

/-- A symbol without quotes is read up to its first white space. -/
theorem readLiteral_cut_short {front back : List Char} {c : Char}
    (hname : ∀ d ∈ front ++ c :: back, UnquotedChar d)
    (hfront : ∀ d ∈ front, Text.isBlank d = false) (hc : Text.isBlank c = true) :
    readLiteral (':' :: (front ++ c :: back ++ rest)) =
      if front.isEmpty then none else some (.sym (String.ofList front), c :: (back ++ rest)) := by
  have hrun : ∀ d ∈ front, isSymbolChar d = true := by
    intro d hd
    obtain ⟨hblank, hopen, hclose, -⟩ :=
      (hname d (List.mem_append_left _ hd)).bareChar (hfront d hd)
    simp [isSymbolChar, hblank, hopen, hclose]
  have hstop : [c].any isSymbolChar = false := by simp [isSymbolChar, hc]
  obtain ⟨htake, hdrop⟩ := takeWhile_run hrun hstop ⟨c, List.mem_singleton_self c, back ++ rest, rfl⟩
  have hstring : readString (front ++ c :: back ++ rest) = none := by
    obtain ⟨d, more, hcons⟩ := List.exists_cons_of_ne_nil
      (List.append_ne_nil_of_right_ne_nil front (List.cons_ne_nil c back))
    have hquote := (hname d (by rw [hcons]; exact List.mem_cons_self)).ne_quote
    rw [hcons, List.cons_append, readString]
    rintro more' ⟨⟩
    exact hquote rfl
  rw [List.append_assoc, List.cons_append] at hstring ⊢
  rw [readLiteral, readSymbol, hstring]
  simp only [htake, hdrop]
  split <;> rfl

/-- A symbol without quotes is read whole exactly when it holds no white space. -/
theorem readLiteral_unquoted_iff (hne : name.toList ≠ [])
    (hname : ∀ c ∈ name.toList, UnquotedChar c) (hrest : StartsIn [' ', ')'] rest) :
    readLiteral (':' :: (name.toList ++ rest)) = some (.sym name, rest) ↔
      ∀ c ∈ name.toList, Text.isBlank c = false := by
  constructor
  · intro h
    obtain ⟨form, hcs, hform⟩ := readLiteral_eq_some h
    rw [← List.cons_append] at hcs
    obtain rfl := List.append_cancel_right hcs
    have hquote : '"' ∉ ':' :: name.toList := by
      simp only [List.mem_cons, not_or]
      exact ⟨by decide, fun hmem => (hname _ hmem).ne_quote rfl⟩
    intro c hc
    rw [Bool.eq_false_iff]
    intro hblank
    have hspaced := hform.spaced hquote c (List.mem_cons_of_mem _ hc) hblank
    rw [(hname c hc).not_isBlank] at hspaced
    cases hspaced
  · intro hblank
    have hends : StartsIn termEnds rest := by
      obtain ⟨c, hc, more, rfl⟩ := hrest
      refine ⟨c, ?_, more, rfl⟩
      simp only [List.mem_cons, List.not_mem_nil, or_false] at hc
      rcases hc with rfl | rfl <;> decide
    exact (WrittenLiteral.bare hne fun c hc => (hname c hc).bareChar (hblank c hc)).readLiteral
      hends

end Unquoted

/-- A dump of one node with one symbol, which stands without quotes. -/
def ofSymbol (front : List Char) (name : String) : String :=
  String.ofList (parenthesize front (' ' :: ':' :: name.toList) [])

end Dump

namespace Tree

open Dump

/-- A dump with a symbol without quotes is accepted exactly when the symbol holds no white space. -/
theorem exists_ofDump_ofSymbol_iff {head : Head} {front : List Char} {name : String}
    (hne : name.toList ≠ []) (hname : ∀ c ∈ name.toList, UnquotedChar c)
    (hhead : WrittenHead head front) {source : String} (hfits : head.Fits source) (path : String) :
    (∃ t, ofDump path source (ofSymbol front name) = .ok t) ↔
      ∀ c ∈ name.toList, Text.isBlank c = false := by
  have hnone : Blanks [] := nofun
  constructor
  · rintro ⟨t, ht⟩ c hc
    obtain ⟨head', children', hform, -⟩ := ofDump_derives ht
    rw [ofSymbol, String.toList_ofList] at hform
    have hquote : '"' ∉ parenthesize front (' ' :: ':' :: name.toList) [] := by
      simp only [parenthesize, List.mem_append, List.mem_cons, List.not_mem_nil, or_false, not_or]
      refine ⟨by decide, ⟨fun hmem => (hhead.plain _ hmem).1 rfl, by decide, by decide,
        fun hmem => (hname _ hmem).ne_quote rfl⟩, by decide⟩
    rw [Bool.eq_false_iff]
    intro hblank
    have hspaced := hform.spaced hquote c (by simp [parenthesize, hc]) hblank
    rw [(hname c hc).not_isBlank] at hspaced
    cases hspaced
  · intro hblank
    have hspace : Blanks [' '] := by simp [Blanks, Json.isBlank]
    have hsymbol := WrittenLiteral.bare hne fun c hc => (hname c hc).bareChar (hblank c hc)
    have hwritten : WrittenDump head [.literal (.sym name)] (ofSymbol front name).toList := by
      have hform := WrittenDump.mk hnone hhead
        (.literal hspace (List.cons_ne_nil ' ' []) hsymbol .nil) hnone hnone
      rw [ofSymbol, String.toList_ofList]
      simpa using hform
    obtain ⟨t, ht, -⟩ := (ofDump_written hwritten path source).1 (by simp [Term.depth, depthAll])
      (by simpa [Term.heads, headsAll] using hfits)
    exact ⟨t, ht⟩

/-- A symbol that the writer of dumps leaves without quotes is read back whole, and a dump that holds
it accepted, exactly when none of its characters is white space. Else it is read up to the first of
them. -/
theorem symbol_whole_iff {name : String} {rest : List Char} (hne : name.toList ≠ [])
    (hname : ∀ c ∈ name.toList, UnquotedChar c) (hrest : StartsIn [' ', ')'] rest) :
    (readLiteral (':' :: (name.toList ++ rest)) = some (.sym name, rest) ↔
      ∀ c ∈ name.toList, Text.isBlank c = false) ∧
    (∀ front c back, name.toList = front ++ c :: back →
      (∀ d ∈ front, Text.isBlank d = false) → Text.isBlank c = true →
        readLiteral (':' :: (name.toList ++ rest)) =
          if front.isEmpty then none
          else some (.sym (String.ofList front), c :: (back ++ rest))) ∧
    ∀ (head : Head) (front : List Char) (path source : String), WrittenHead head front →
      head.Fits source →
        ((∃ t, ofDump path source (ofSymbol front name) = .ok t) ↔
          ∀ c ∈ name.toList, Text.isBlank c = false) := by
  refine ⟨readLiteral_unquoted_iff hne hname hrest, fun front c back hsplit hfront hc => ?_,
    fun head front path source hhead hfits =>
      exists_ofDump_ofSymbol_iff hne hname hhead hfits path⟩
  rw [hsplit] at hname ⊢
  exact readLiteral_cut_short hname hfront hc

/-- Letters outside of the ASCII range are read whole, and a no-break space is not. -/
theorem symbol_whole_iff_letters :
    let name := "été!"
    let head : Head := ⟨"sym", some (0, 7), none⟩
    (name.toList ≠ [] ∧ (∀ c ∈ name.toList, UnquotedChar c) ∧ StartsIn [' ', ')'] [')'] ∧
      WrittenHead head "sym@0..7".toList ∧ head.Fits ":été!" ∧
      readLiteral (':' :: (name.toList ++ [')'])) = some (.sym name, [')']) ∧
      ∃ t, ofDump "a.rb" ":été!" (ofSymbol "sym@0..7".toList name) = .ok t) ∧
    ((∀ c ∈ "a\u00a0b".toList, UnquotedChar c) ∧
      readLiteral (':' :: ("a\u00a0b".toList ++ [')'])) = some (.sym "a", ['\u00a0', 'b', ')'])) := by
  intro name head
  have hrest : StartsIn [' ', ')'] [')'] := ⟨')', by decide, [], rfl⟩
  constructor
  · have hne : name.toList ≠ [] := by decide
    have hname : ∀ c ∈ name.toList, UnquotedChar c := by simp [name, UnquotedChar]
    have hblank : ∀ c ∈ name.toList, Text.isBlank c = false := by simp [name, Text.isBlank]
    have hnone : Blanks [] := List.forall_mem_nil _
    have hrange : Marked '@' (some (0, 7)) "@0..7".toList := by
      refine .given hnone (.digit 0 (by decide)) ?_ (.digit 7 (by decide)) ?_ <;>
        (unfold Word.bound64; omega)
    have hhead : WrittenHead head "sym@0..7".toList :=
      .mk hnone (by simp) (by simp) hrange .missing
    have hfits : head.Fits ":été!" := by
      constructor
      · rintro bounds ⟨⟩
        exact ⟨by decide, by decide, by decide, by decide⟩
      · rintro bounds ⟨⟩
    obtain ⟨hwhole, -, haccepted⟩ := symbol_whole_iff hne hname hrest
    exact ⟨hne, hname, hrest, hhead, hfits, hwhole.mpr hblank,
      (haccepted head _ "a.rb" _ hhead hfits).mpr hblank⟩
  · have hname : ∀ c ∈ "a\u00a0b".toList, UnquotedChar c := by simp [UnquotedChar]
    obtain ⟨-, hcut, -⟩ := symbol_whole_iff (by decide) hname hrest
    exact ⟨hname, hcut ['a'] '\u00a0' ['b'] (by decide) (by simp [Text.isBlank]) (by decide)⟩

/-- A no-break space is left without quotes and ends a symbol, so the rest of the symbol is taken for
no child. -/
theorem symbol_cut_short :
    let name := "a\u00a0b"
    name.toList ≠ [] ∧ (∀ c ∈ name.toList, UnquotedChar c) ∧ StartsIn [' ', ')'] [')'] ∧
      readLiteral (':' :: (name.toList ++ [')'])) ≠ some (.sym name, [')']) ∧
      ofDump "a.rb" ":\"a\u00a0b\"" "(sym @0..7 :a\u00a0b)" =
        .error (.malformed (.unreadable 13)) := by
  intro name
  have hname : ∀ c ∈ name.toList, UnquotedChar c := by simp [name, UnquotedChar]
  have hrest : StartsIn [' ', ')'] [')'] := ⟨')', by decide, [], rfl⟩
  refine ⟨by decide, hname, hrest, ?_, by cbv⟩
  rw [Ne, readLiteral_unquoted_iff (by decide) hname hrest]
  exact fun hblank => absurd (hblank '\u00a0' (by decide)) (by decide)

end Tree
end SpecUpgrade
