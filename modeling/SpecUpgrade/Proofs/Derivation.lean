import Mathlib
import SpecUpgrade.Proofs.Reading
import SpecUpgrade.Proofs.Unfolding

/-!
The reader reads nothing but written forms. Whatever it takes of a text is a form of what it
returns, and what it returns as the rest is all that it has not taken; so a dump that is accepted
is, as a whole, a form of the tree that is built from it.
-/

namespace SpecUpgrade

namespace Dump

/-! ## Numbers -/

theorem digitChar_digitValue {c : Char} (h : c.isDigit = true) :
    Json.digitValue c < 10 ∧ Nat.digitChar (Json.digitValue c) = c := by
  obtain ⟨hlow, hhigh⟩ := Char.isDigit_iff_toNat.mp h
  have hzero : ('0' : Char).toNat = 48 := rfl
  have hnine : ('9' : Char).toNat = 57 := rfl
  rw [hzero] at hlow
  rw [hnine] at hhigh
  have hlt : Json.digitValue c < 10 := by
    rw [Json.digitValue, hzero]
    omega
  refine ⟨hlt, Char.toNat_inj.mp ?_⟩
  rw [Nat.toNat_digitChar_of_lt_ten hlt, Json.digitValue, hzero]
  omega

/-- A run of digits is the written form of its value. -/
theorem decimal_of_isDigit {cs : List Char} (hne : cs ≠ []) (h : ∀ c ∈ cs, c.isDigit = true) :
    Decimal cs (value cs) := by
  induction cs using List.reverseRecOn with
  | nil => exact absurd rfl hne
  | append_singleton cs c ih =>
    obtain ⟨hlt, hchar⟩ := digitChar_digitValue (h c (by simp))
    rw [value, List.foldl_append, List.foldl_cons, List.foldl_nil]
    cases cs with
    | nil =>
      have hone := Decimal.digit _ hlt
      rw [hchar] at hone
      simpa using hone
    | cons d cs =>
      have hmore := Decimal.more (ih (by simp) fun c hc => h c (List.mem_append_left _ hc)) _ hlt
      rwa [hchar] at hmore

theorem decimal_takeWhile {cs : List Char} (hne : cs.takeWhile Char.isDigit ≠ []) :
    Decimal (cs.takeWhile Char.isDigit) (value (cs.takeWhile Char.isDigit)) :=
  decimal_of_isDigit hne fun _ hc => (List.mem_takeWhile_imp hc)

theorem readNat_eq_some {cs rest : List Char} {n : Nat} (h : readNat cs = some (n, rest)) :
    ∃ digits, cs = digits ++ rest ∧ Decimal digits n ∧ n < Word.bound64 := by
  simp only [readNat, Option.ite_none_left_eq_some, not_or, Option.some.injEq, Prod.mk.injEq,
    List.isEmpty_iff, Nat.not_le] at h
  obtain ⟨⟨hne, hlt⟩, rfl, rfl⟩ := h
  exact ⟨_, (List.takeWhile_append_dropWhile ..).symm, decimal_takeWhile hne, hlt⟩

theorem readBounds_eq_some {cs rest : List Char} {start stop : Nat}
    (h : readBounds cs = some ((start, stop), rest)) :
    ∃ front back, cs = front ++ '.' :: '.' :: back ++ rest ∧ Decimal front start ∧
      start < Word.bound64 ∧ Decimal back stop ∧ stop < Word.bound64 := by
  unfold readBounds at h
  obtain ⟨⟨start', mid⟩, hfront, hmid⟩ := Option.bind_eq_some_iff.mp h
  obtain ⟨front, hcs, hdecimal, hlt⟩ := readNat_eq_some hfront
  simp only at hmid
  split at hmid
  · rename_i tail
    obtain ⟨⟨stop', rest'⟩, hback, hend⟩ := Option.bind_eq_some_iff.mp hmid
    obtain ⟨back, htail, hdecimal', hlt'⟩ := readNat_eq_some hback
    obtain ⟨⟨rfl, rfl⟩, rfl⟩ : (start' = start ∧ stop' = stop) ∧ rest' = rest := by
      simpa using hend
    exact ⟨front, back, by simp [hcs, htail], hdecimal, hlt, hdecimal', hlt'⟩
  · cases hmid

theorem skipBlank_split (cs : List Char) : ∃ ws, Blanks ws ∧ cs = ws ++ Json.skipBlank cs :=
  ⟨cs.takeWhile Json.isBlank, fun _ hc => List.mem_takeWhile_imp hc,
    (List.takeWhile_append_dropWhile ..).symm⟩

/-- What is taken for the bounds after a mark is their form. Where they cannot be read nothing is
taken, not even the blanks before the mark. -/
theorem readMarked_eq {mark : Char} {cs rest : List Char} {bounds : Option Bounds}
    (h : readMarked mark cs = (bounds, rest)) :
    ∃ front, cs = front ++ rest ∧ Marked mark bounds front := by
  have hnone : (none, cs) = (bounds, rest) →
      ∃ front, cs = front ++ rest ∧ Marked mark bounds front := by
    rintro ⟨⟩
    exact ⟨[], rfl, .missing⟩
  obtain ⟨ws, hws, hsplit⟩ := skipBlank_split cs
  unfold readMarked at h
  split at h
  · rename_i c tail hskip
    split at h
    · rename_i hc
      split at h
      · rename_i bounds' rest' hread
        obtain ⟨rfl, rfl⟩ := Prod.mk.inj h
        obtain ⟨front, back, htail, hfront, hstart, hback, hstop⟩ := readBounds_eq_some hread
        refine ⟨_, ?_, .given hws hfront hstart hback hstop⟩
        rw [hsplit, hskip, hc, htail]
        simp
      · exact hnone h
    · exact hnone h
  · exact hnone h

/-! ## Texts -/

/-- What stands for pieces of a string literal. -/
inductive Pieced : List Char → List Json.Piece → Prop where
  | nil : Pieced [] []
  | plain {c : Char} {written : List Char} {pieces : List Json.Piece} (hquote : c ≠ '"')
      (hslash : c ≠ '\\') (hcontrol : 0x20 ≤ c.toNat) (hrest : Pieced written pieces) :
      Pieced (c :: written) (.char c :: pieces)
  | escape {e c : Char} {written : List Char} {pieces : List Json.Piece}
      (he : Json.escaped? e = some c) (hrest : Pieced written pieces) :
      Pieced ('\\' :: e :: written) (.char c :: pieces)
  | unit {a b c d : Char} {u : Nat} {written : List Char} {pieces : List Json.Piece}
      (hu : Json.hexUnit? a b c d = some u) (hrest : Pieced written pieces) :
      Pieced ('\\' :: 'u' :: a :: b :: c :: d :: written) (.unit u :: pieces)

theorem readPieces_eq_some {cs rest : List Char} {pieces : List Json.Piece}
    (h : Json.readPieces cs = some (pieces, rest)) :
    ∃ written, cs = written ++ '"' :: rest ∧ Pieced written pieces := by
  fun_induction Json.readPieces cs generalizing pieces with
  | case1 => cases h
  | case2 rest' =>
    obtain ⟨rfl, rfl⟩ := Prod.mk.inj (Option.some.inj h)
    exact ⟨[], rfl, .nil⟩
  | case3 a b c d rest' ih =>
    obtain ⟨u, hu, h⟩ := Option.bind_eq_some_iff.mp h
    obtain ⟨⟨pieces', rest''⟩, hread, h⟩ := Option.bind_eq_some_iff.mp h
    obtain ⟨rfl, rfl⟩ := Prod.mk.inj (Option.some.inj h)
    obtain ⟨written, rfl, hwritten⟩ := ih hread
    exact ⟨_, rfl, .unit hu hwritten⟩
  | case4 e rest' hunit ih =>
    obtain ⟨c, he, h⟩ := Option.bind_eq_some_iff.mp h
    obtain ⟨⟨pieces', rest''⟩, hread, h⟩ := Option.bind_eq_some_iff.mp h
    obtain ⟨rfl, rfl⟩ := Prod.mk.inj (Option.some.inj h)
    obtain ⟨written, rfl, hwritten⟩ := ih hread
    exact ⟨_, rfl, .escape he hwritten⟩
  | case5 c rest' hquote hunit hescape hcontrol =>
    cases h
  | case6 c rest' hquote hunit hescape hcontrol ih =>
    obtain ⟨⟨pieces', rest''⟩, hread, h⟩ := Option.bind_eq_some_iff.mp h
    obtain ⟨rfl, rfl⟩ := Prod.mk.inj (Option.some.inj h)
    obtain ⟨written, hrest, hwritten⟩ := ih hread
    -- a backslash would have been read as an escape, since the quote comes later
    have hslash : c ≠ '\\' := by
      intro hc
      obtain ⟨e, more, hmore⟩ : ∃ e more, rest' = e :: more :=
        List.exists_cons_of_ne_nil (by simp [hrest])
      exact hescape e more hc hmore
    exact ⟨c :: written, by simp [hrest], .plain hquote hslash (by omega) hwritten⟩

/-- The pieces of a literal pair up as surrogates where they denote a text. -/
theorem Pieced.quoted {written text : List Char} {pieces : List Json.Piece}
    (h : Pieced written pieces) (htext : Json.decodePieces pieces = some text) :
    Quoted written text := by
  fun_induction Json.decodePieces pieces generalizing written text with
  | case1 =>
    obtain rfl := Option.some.inj htext
    cases h
    exact .nil
  | case2 c pieces ih =>
    obtain ⟨text', htext', rfl⟩ := Option.map_eq_some_iff.mp htext
    cases h with
    | plain hquote hslash hcontrol hrest => exact .plain hquote hslash hcontrol (ih hrest htext')
    | escape he hrest => exact .escape he (ih hrest htext')
  | case3 u v pieces hu ih =>
    obtain ⟨text', htext', rfl⟩ := Option.map_eq_some_iff.mp htext
    cases h with
    | unit hunit hrest => exact .unit hunit hu (ih hrest htext')
  | case4 u v pieces hu hpair ih =>
    obtain ⟨text', htext', rfl⟩ := Option.map_eq_some_iff.mp htext
    cases h with
    | unit hunit hrest =>
      cases hrest with
      | unit hunit' hrest =>
        exact .pair hunit (by omega) hunit' hpair.2 (ih hrest htext')
  | case5 u v pieces hu hpair => cases htext
  | case6 u pieces hnot hu ih =>
    obtain ⟨text', htext', rfl⟩ := Option.map_eq_some_iff.mp htext
    cases h with
    | unit hunit hrest => exact .unit hunit hu (ih hrest htext')
  | case7 u pieces hnot hu => cases htext

theorem readString_eq_some {cs rest : List Char} {text : String}
    (h : readString cs = some (text, rest)) :
    ∃ written, cs = quote written ++ rest ∧ Quoted written text.toList := by
  unfold readString at h
  split at h
  · obtain ⟨⟨pieces, rest'⟩, hread, h⟩ := Option.bind_eq_some_iff.mp h
    obtain ⟨text', htext, h⟩ := Option.bind_eq_some_iff.mp h
    obtain ⟨rfl, rfl⟩ := Prod.mk.inj (Option.some.inj h)
    obtain ⟨chars, hchars, rfl⟩ := Option.map_eq_some_iff.mp htext
    obtain ⟨written, rfl, hwritten⟩ := readPieces_eq_some hread
    exact ⟨written, by simp [quote], by rw [String.toList_ofList]; exact hwritten.quoted hchars⟩
  · cases h

/-! ## Numbers with a fraction or an exponent -/

theorem exponent?_eq_some {cs : List Char} {e : Int} (h : exponent? cs = some e) :
    WrittenExponent e cs := by
  have hdigits : ∀ {digits : List Char},
      ¬(digits.isEmpty = true ∨ (!digits.all Char.isDigit) = true) →
      Decimal digits (value digits) := by
    intro digits hnot
    simp only [List.isEmpty_iff, Bool.not_eq_true', not_or, Bool.not_eq_false,
      List.all_eq_true] at hnot
    exact decimal_of_isDigit hnot.1 hnot.2
  unfold exponent? at h
  split at h
  · obtain rfl := Option.some.inj h
    exact .missing
  · rename_i c rest
    simp only [Option.ite_none_right_eq_some] at h
    obtain ⟨hc, h⟩ := h
    split at h <;> simp only [Option.ite_none_left_eq_some, Option.some.injEq] at h <;>
      obtain ⟨hnot, rfl⟩ := h
    · exact .negative hc (hdigits hnot)
    · exact .positive hc (hdigits hnot)
    · exact .unsigned hc (hdigits hnot)

theorem fraction_eq {cs digits rest : List Char} (h : fraction cs = (digits, rest)) :
    ∃ front, cs = front ++ rest ∧ WrittenFraction digits front := by
  unfold fraction at h
  split at h
  · obtain ⟨rfl, rfl⟩ := Prod.mk.inj h
    refine ⟨_, ?_, .given fun _ hc => List.mem_takeWhile_imp hc⟩
    rw [List.cons_append, List.takeWhile_append_dropWhile]
  · obtain ⟨rfl, rfl⟩ := Prod.mk.inj h
    exact ⟨[], rfl, .missing⟩

theorem WrittenFraction.isDigit {digits cs : List Char} (h : WrittenFraction digits cs) :
    ∀ c ∈ digits, c.isDigit = true := by
  cases h with
  | missing => simp
  | given hdigits => exact hdigits

theorem decimal?_eq_some {cs : List Char} {bits : Nat} (h : decimal? cs = some bits) :
    ∃ digits fraction power e,
      cs = cs.takeWhile Char.isDigit ++ fraction ++ power ∧ WrittenFraction digits fraction ∧
        WrittenExponent e power ∧
        bits = Binary64.ofDecimal (value (cs.takeWhile Char.isDigit ++ digits))
          (e - digits.length) := by
  have hpair : fraction (cs.dropWhile Char.isDigit) =
      ((fraction (cs.dropWhile Char.isDigit)).1, (fraction (cs.dropWhile Char.isDigit)).2) := rfl
  obtain ⟨fraction, hrest, hfraction⟩ := fraction_eq hpair
  simp only [decimal?, Option.bind_eq_bind, Option.bind_eq_some_iff, Option.pure_def,
    Option.some.injEq] at h
  obtain ⟨e, he, rfl⟩ := h
  refine ⟨_, fraction, _, e, ?_, hfraction, exponent?_eq_some he, rfl⟩
  rw [List.append_assoc, ← hrest, List.takeWhile_append_dropWhile]

/-- What is read as an integer is one of its forms. -/
private theorem integer_form (bare : List Char → Prop) {negative : Bool} {run : List Char}
    (hdecimal : Decimal run (value run))
    (hlow : -(Word.half64 : Int) ≤ if negative then -(value run : Int) else value run)
    (hhigh : (if negative then -(value run : Int) else value run) < Word.half64) :
    LooseLiteral bare (.int (if negative then -(value run : Int) else value run))
      (sign negative ++ run) := by
  cases negative with
  | true =>
    simp only [if_pos] at hlow ⊢
    exact .written (.negative hdecimal (by omega))
  | false =>
    simp only [Bool.false_eq_true, if_false] at hhigh ⊢
    exact .written (.int hdecimal (by omega))

/-- A run of number characters that has a value is a form of it. -/
theorem number?_eq_some (bare : List Char → Prop) {negative : Bool} {run : List Char} {l : Literal}
    (hfirst : run.takeWhile Char.isDigit ≠ []) (h : number? negative run = some l) :
    LooseLiteral bare l (sign negative ++ run) := by
  simp only [number?, Bool.and_eq_true, decide_eq_true_eq] at h
  by_cases hfits : (run.all Char.isDigit = true ∧
      -(Word.half64 : Int) ≤ if negative then -(value run : Int) else value run) ∧
        (if negative then -(value run : Int) else value run) < Word.half64
  · rw [if_pos hfits] at h
    obtain rfl := Option.some.inj h
    obtain ⟨⟨hall, hlow⟩, hhigh⟩ := hfits
    have htake : run.takeWhile Char.isDigit = run :=
      List.takeWhile_eq_self_iff.mpr (List.all_eq_true.mp hall)
    have hdecimal := decimal_takeWhile hfirst
    rw [htake] at hdecimal
    exact integer_form bare hdecimal hlow hhigh
  · rw [if_neg hfits] at h
    obtain ⟨bits, hbits, rfl⟩ := Option.map_eq_some_iff.mp h
    obtain ⟨digits, fraction, power, e, hrun, hfraction, hpower, rfl⟩ := decimal?_eq_some hbits
    have hwhole : ∀ c ∈ run.takeWhile Char.isDigit, c.isDigit = true :=
      fun _ hc => List.mem_takeWhile_imp hc
    have hvalue : Decimal (run.takeWhile Char.isDigit ++ digits)
        (value (run.takeWhile Char.isDigit ++ digits)) := by
      refine decimal_of_isDigit (by simp [hfirst]) fun c hc => ?_
      rcases List.mem_append.mp hc with hc | hc
      · exact hwhole c hc
      · exact hfraction.isDigit c hc
    -- digits alone are read as a real number only where they are too many for an integer
    have hwide : fraction = [] → power = [] →
        if negative then Word.half64 < value (run.takeWhile Char.isDigit ++ digits)
        else Word.half64 ≤ value (run.takeWhile Char.isDigit ++ digits) := by
      rintro rfl rfl
      obtain rfl : digits = [] := by
        cases hfraction
        rfl
      rw [List.append_nil, List.append_nil] at hrun
      rw [List.append_nil, ← hrun]
      rw [← hrun, ← List.all_eq_true] at hwhole
      simp only [hwhole, true_and] at hfits
      have hhalf : 0 < Word.half64 := by decide
      cases negative with
      | true =>
        simp only [if_pos] at hfits ⊢
        omega
      | false =>
        simp only [Bool.false_eq_true, if_false] at hfits ⊢
        omega
    have hreal : LooseLiteral bare _ (sign negative ++ _) :=
      .real hfirst hwhole hfraction hpower hvalue hwide
    rwa [← hrun] at hreal

theorem readNumber_eq_some (bare : List Char → Prop) {negative : Bool} {cs rest : List Char}
    {l : Literal} (h : readNumber negative cs = some (l, rest)) :
    ∃ run, cs = run ++ rest ∧ LooseLiteral bare l (sign negative ++ run) := by
  unfold readNumber at h
  split at h
  · rename_i c cs
    split at h
    · rename_i hdigit
      obtain ⟨l', hnumber, h⟩ := Option.map_eq_some_iff.mp h
      obtain ⟨rfl, rfl⟩ := Prod.mk.inj h
      refine ⟨_, (List.takeWhile_append_dropWhile ..).symm, number?_eq_some bare ?_ hnumber⟩
      have hnumberChar : isNumberChar c = true := by simp [isNumberChar, hdigit]
      simp [hnumberChar, hdigit]
    · cases h
  · cases h

/-! ## Literals -/

theorem readWord_eq_some (bare : List Char → Prop) {cs rest : List Char} {l : Literal}
    (h : readWord cs = some (l, rest)) : ∃ word, cs = word ++ rest ∧ LooseLiteral bare l word := by
  have hsplit : cs = cs.takeWhile Char.isAlpha ++ cs.dropWhile Char.isAlpha :=
    (List.takeWhile_append_dropWhile ..).symm
  unfold readWord at h
  have hword : ∀ {text : String}, String.ofList (cs.takeWhile Char.isAlpha) = text →
      cs.takeWhile Char.isAlpha = text.toList := by
    rintro text rfl
    rw [String.toList_ofList]
  split at h
  · rename_i htext
    obtain ⟨rfl, rfl⟩ := Prod.mk.inj (Option.some.inj h)
    exact ⟨_, hsplit, by rw [hword htext]; exact .written .nil⟩
  · rename_i htext
    obtain ⟨rfl, rfl⟩ := Prod.mk.inj (Option.some.inj h)
    exact ⟨_, hsplit, by rw [hword htext]; exact .written .yes⟩
  · rename_i htext
    obtain ⟨rfl, rfl⟩ := Prod.mk.inj (Option.some.inj h)
    exact ⟨_, hsplit, by rw [hword htext]; exact .written .no⟩
  · cases h

theorem readSymbol_eq_some {cs rest : List Char} {name : String}
    (h : readSymbol cs = some (name, rest)) :
    ∃ form, cs = form ++ rest ∧ LooseLiteral (fun _ => True) (.sym name) (':' :: form) := by
  unfold readSymbol at h
  split at h
  · rename_i read hstring
    obtain rfl := Option.some.inj h
    obtain ⟨written, rfl, hwritten⟩ := readString_eq_some hstring
    exact ⟨_, rfl, .written (.quoted hwritten)⟩
  · simp only [Option.ite_none_left_eq_some, Option.some.injEq, Prod.mk.injEq] at h
    obtain ⟨hne, rfl, rfl⟩ := h
    refine ⟨(String.ofList (cs.takeWhile isSymbolChar)).toList, ?_, .bare ?_ ?_ trivial⟩
    · rw [String.toList_ofList, List.takeWhile_append_dropWhile]
    · simpa using hne
    · intro c hc
      rw [String.toList_ofList] at hc
      have hsymbol := List.mem_takeWhile_imp hc
      simpa [isSymbolChar, and_assoc] using hsymbol

/-- A literal that is read is one of its forms. -/
theorem readLiteral_eq_some {cs rest : List Char} {l : Literal}
    (h : readLiteral cs = some (l, rest)) :
    ∃ form, cs = form ++ rest ∧ LooseLiteral (fun _ => True) l form := by
  unfold readLiteral at h
  split at h
  · obtain ⟨⟨name, rest'⟩, hsymbol, h⟩ := Option.map_eq_some_iff.mp h
    obtain ⟨rfl, rfl⟩ := Prod.mk.inj h
    obtain ⟨form, rfl, hform⟩ := readSymbol_eq_some hsymbol
    exact ⟨':' :: form, rfl, hform⟩
  · obtain ⟨⟨text, rest'⟩, hstring, h⟩ := Option.map_eq_some_iff.mp h
    obtain ⟨rfl, rfl⟩ := Prod.mk.inj h
    obtain ⟨written, hcs, hwritten⟩ := readString_eq_some hstring
    exact ⟨_, hcs, .written (.str hwritten)⟩
  · obtain ⟨run, rfl, hrun⟩ := readNumber_eq_some (fun _ => True) h
    exact ⟨'-' :: run, rfl, hrun⟩
  · split at h
    · exact readNumber_eq_some (fun _ => True) h
    · exact readWord_eq_some (fun _ => True) h
  · cases h

/-! ## Nodes -/

/-- A form of one term, which can stand before forms of others. -/
def Prepends (term : Term) (form : List Char) : Prop :=
  ∀ {ws more : List Char} {terms : List Term}, Blanks ws → LooseTerms (fun _ => True) terms more →
    LooseTerms (fun _ => True) (term :: terms) (ws ++ form ++ more)

/-- With so many steps the reader takes nothing but forms of what it returns. -/
structure Sound (fuel : Nat) : Prop where
  node : ∀ {cs rest : List Char} {head : Head} {children : List Term},
    readNode fuel cs = .ok ((head, children), rest) →
      ∃ front inner close, cs = parenthesize front inner close ++ rest ∧ WrittenHead head front ∧
        LooseTerms (fun _ => True) children inner ∧ Blanks close
  children : ∀ {cs rest : List Char} {terms : List Term}, readChildren fuel cs = (terms, rest) →
    ∃ form, cs = form ++ rest ∧ LooseTerms (fun _ => True) terms form
  term : ∀ {cs rest : List Char} {term : Term}, readTerm fuel cs = some (term, rest) →
    ∃ form, cs = form ++ rest ∧ Prepends term form

theorem sound_zero : Sound 0 := by
  refine ⟨?_, ?_, ?_⟩
  · intro cs rest head children h
    cases h
  · intro cs rest terms h
    obtain ⟨rfl, rfl⟩ := Prod.mk.inj h
    exact ⟨[], rfl, .nil⟩
  · intro cs rest term h
    cases h

/-- A kind with blanks before it and the bounds behind it. -/
theorem writtenHead_of_read {cs rest rest' : List Char} {range heredoc : Option Bounds}
    (hkind : (Json.skipBlank cs).takeWhile isKindChar ≠ [])
    (hrange : readMarked '@' ((Json.skipBlank cs).dropWhile isKindChar) = (range, rest))
    (hheredoc : readMarked '~' rest = (heredoc, rest')) :
    ∃ front, cs = front ++ rest' ∧
      WrittenHead ⟨String.ofList ((Json.skipBlank cs).takeWhile isKindChar), range, heredoc⟩
        front := by
  obtain ⟨ws, hws, hsplit⟩ := skipBlank_split cs
  obtain ⟨front, hfront, hmarked⟩ := readMarked_eq hrange
  obtain ⟨back, hback, hmarked'⟩ := readMarked_eq hheredoc
  refine ⟨_, ?_, .mk hws (by simpa using hkind) ?_ hmarked hmarked'⟩
  · rw [String.toList_ofList, List.append_assoc, List.append_assoc, List.append_assoc, ← hback,
      ← hfront, List.takeWhile_append_dropWhile, ← hsplit]
  · intro c hc
    rw [String.toList_ofList] at hc
    simpa [isKindChar] using List.mem_takeWhile_imp hc

theorem Sound.readNode_succ {fuel : Nat} (h : Sound fuel) {cs rest : List Char} {head : Head}
    {children : List Term} (hread : readNode (fuel + 1) cs = .ok ((head, children), rest)) :
    ∃ front inner close, cs = parenthesize front inner close ++ rest ∧ WrittenHead head front ∧
      LooseTerms (fun _ => True) children inner ∧ Blanks close := by
  unfold readNode at hread
  split at hread
  · rename_i cs
    simp only at hread
    split at hread
    · cases hread
    rename_i hkind
    split at hread
    · rename_i rest' hclose
      obtain ⟨⟨rfl, rfl⟩, rfl⟩ : (_ = head ∧ _ = children) ∧ rest' = rest := by
        simpa only [Except.ok.injEq, Prod.mk.injEq] using hread
      obtain ⟨front, hfront, hhead⟩ := writtenHead_of_read (by simpa using hkind)
        (Prod.eta _).symm (Prod.eta _).symm
      obtain ⟨inner, hinner, hterms⟩ := h.children (Prod.eta _).symm
      obtain ⟨close, hblanks, hend⟩ := skipBlank_split (readChildren fuel _).2
      refine ⟨front, inner, close, ?_, hhead, hterms, hblanks⟩
      rw [hclose] at hend
      rw [hfront, hinner, hend]
      simp [parenthesize]
    · cases hread
  · cases hread

theorem Sound.readChildren_succ {fuel : Nat} (h : Sound fuel) {cs rest : List Char}
    {terms : List Term} (hread : readChildren (fuel + 1) cs = (terms, rest)) :
    ∃ form, cs = form ++ rest ∧ LooseTerms (fun _ => True) terms form := by
  unfold readChildren at hread
  split at hread
  · obtain ⟨rfl, rfl⟩ := Prod.mk.inj hread
    exact ⟨[], rfl, .nil⟩
  · rename_i term rest₁ hterm
    split at hread
    rename_i terms' rest₂ hterms
    obtain ⟨rfl, rfl⟩ := Prod.mk.inj hread
    obtain ⟨ws, hws, hsplit⟩ := skipBlank_split cs
    obtain ⟨form, hform, hprepends⟩ := h.term hterm
    obtain ⟨more, hmore, hloose⟩ := h.children hterms
    refine ⟨_, ?_, hprepends hws hloose⟩
    rw [List.append_assoc, List.append_assoc, ← hmore, ← hform, ← hsplit]

theorem Sound.readTerm_succ {fuel : Nat} (h : Sound fuel) {cs rest : List Char} {term : Term}
    (hread : readTerm (fuel + 1) cs = some (term, rest)) :
    ∃ form, cs = form ++ rest ∧ Prepends term form := by
  unfold readTerm at hread
  split at hread
  · rename_i head children rest₁ hnode
    obtain ⟨rfl, rfl⟩ := Prod.mk.inj (Option.some.inj hread)
    obtain ⟨front, inner, close, hcs, hhead, hchildren, hclose⟩ := h.node hnode
    exact ⟨_, hcs, fun hws hmore => .node hws hhead hchildren hclose hmore⟩
  · obtain ⟨⟨l, rest₁⟩, hliteral, hread⟩ := Option.map_eq_some_iff.mp hread
    obtain ⟨rfl, rfl⟩ := Prod.mk.inj hread
    obtain ⟨form, hcs, hform⟩ := readLiteral_eq_some hliteral
    exact ⟨form, hcs, fun hws hmore => .literal hws hform hmore⟩

/-- The reader takes nothing but forms of what it returns, however many steps it may take. -/
theorem sound (fuel : Nat) : Sound fuel := by
  -- the readers call one another with one step less, so all three go through together
  induction fuel with
  | zero => exact sound_zero
  | succ fuel ih => exact ⟨ih.readNode_succ, ih.readChildren_succ, ih.readTerm_succ⟩

/-- A dump that is read is, as a whole, a form of what is read. -/
theorem looseDump_of_read {dump : String} {head : Head} {children : List Term}
    (h : Dump.read dump = .ok (head, children)) :
    LooseDump (fun _ => True) head children dump.toList := by
  simp only [Dump.read] at h
  split at h
  · cases h
  · rename_i root rest hnode
    split at h
    · rename_i hafter
      obtain rfl := Except.ok.inj h
      obtain ⟨before, hbefore, hsplit⟩ := skipBlank_split dump.toList
      obtain ⟨front, inner, close, hcs, hhead, hchildren, hclose⟩ := (sound _).node hnode
      obtain ⟨after, hblanks, hend⟩ := skipBlank_split rest
      rw [hafter, List.append_nil] at hend
      rw [hsplit, hcs, hend, ← List.append_assoc]
      exact .mk hbefore hhead hchildren hclose hblanks
    · cases h

/-! ## Bounds -/

theorem boundsFit_of_span {source : String} {bounds : Bounds} {s : Span}
    (hspan : span bounds = .ok s) (hfits : s.Fits source) : BoundsFit source bounds := by
  rw [← bounds_of_span hspan]
  exact ⟨s.start_le_stop, hfits.stop_le, hfits.start_boundary, hfits.stop_boundary⟩

/-- The bounds of a node fit when the spans that are made of them do. -/
theorem Head.fits_of_place {head : Head} {source : String} {range : Span} {heredoc : Option Span}
    (hplace : head.place = .ok range) (hbody : head.body = .ok heredoc)
    (hrange : range.Fits source) (hheredoc : ∀ s, heredoc = some s → s.Fits source) :
    head.Fits source := by
  constructor
  · intro bounds hbounds
    rw [place, Option.mem_def.mp hbounds] at hplace
    exact boundsFit_of_span hplace hrange
  · intro bounds hbounds
    rw [body, Option.mem_def.mp hbounds] at hbody
    cases hspan : span bounds with
    | error e =>
      simp only [hspan] at hbody
      cases hbody
    | ok s =>
      simp only [hspan] at hbody
      cases hbody
      exact boundsFit_of_span hspan (hheredoc s rfl)

private theorem fits_of_addNode_of {b b' : Builder} {head : Head} {children : List Term} {id : Nat}
    (h : addNode b head children = .ok (id, b'))
    (hchildren : ∀ slots b', addChildren b children = .ok (slots, b') →
      b'.source = b.source ∧ ∀ k ∈ headsAll children, k.Fits b.source) :
    b'.source = b.source ∧ ∀ k ∈ (Term.node head children).heads, k.Fits b.source := by
  rw [addNode] at h
  obtain ⟨range, hplace, h⟩ := Tree.bind_eq_ok_iff.mp h
  obtain ⟨heredoc, hbody, h⟩ := Tree.bind_eq_ok_iff.mp h
  obtain ⟨⟨slots, b''⟩, hadd, h⟩ := Tree.bind_eq_ok_iff.mp h
  obtain ⟨hsource, hfits⟩ := hchildren slots b'' hadd
  obtain ⟨hnode, -, -, -, hkept, -⟩ := (Builder.push_eq_ok_iff ..).mp h
  rw [hsource] at hnode
  refine ⟨hkept.trans hsource, fun k hk => ?_⟩
  rw [Term.heads] at hk
  rcases List.mem_cons.mp hk with rfl | hk
  · exact Head.fits_of_place hplace hbody hnode.range hnode.heredoc
  · exact hfits k hk

mutual

private theorem fits_of_addTerm {b b' : Builder} :
    (term : Term) → (slot : Child) → addTerm b term = .ok (slot, b') →
      b'.source = b.source ∧ ∀ k ∈ term.heads, k.Fits b.source
  | .literal l, slot, h => by
    rw [addTerm] at h
    cases h
    exact ⟨rfl, by simp [Term.heads]⟩
  | .node head children, slot, h => by
    rw [addTerm] at h
    obtain ⟨⟨id, b''⟩, hnode, h⟩ := Tree.bind_eq_ok_iff.mp h
    cases h
    exact fits_of_addNode_of hnode fun slots b' h => fits_of_addChildren children slots h

private theorem fits_of_addChildren {b b' : Builder} :
    (terms : List Term) → (slots : List Child) → addChildren b terms = .ok (slots, b') →
      b'.source = b.source ∧ ∀ k ∈ headsAll terms, k.Fits b.source
  | [], slots, h => by
    rw [addChildren] at h
    cases h
    exact ⟨rfl, by simp [headsAll]⟩
  | term :: terms, slots, h => by
    rw [addChildren] at h
    obtain ⟨⟨slot, b₁⟩, hterm, h⟩ := Tree.bind_eq_ok_iff.mp h
    obtain ⟨⟨slots, b₂⟩, hterms, h⟩ := Tree.bind_eq_ok_iff.mp h
    cases h
    obtain ⟨hsource, hfits⟩ := fits_of_addTerm term slot hterm
    obtain ⟨hsource', hfits'⟩ := fits_of_addChildren terms slots hterms
    refine ⟨hsource'.trans hsource, fun k hk => ?_⟩
    rw [headsAll] at hk
    rcases List.mem_append.mp hk with hk | hk
    · exact hfits k hk
    · rw [← hsource]
      exact hfits' k hk

end

end Dump

namespace Tree

open Dump

/-- A dump that is accepted is let pass by the guard and read, and the tree unfolds to what is
read. -/
theorem unfolds_of_ofDump {path source dump : String} {t : Tree}
    (h : ofDump path source dump = .ok t) :
    ∃ head children, guardNesting dump = .ok () ∧ Dump.read dump = .ok (head, children) ∧
      t.path = path ∧ t.source = source ∧ t.term t.root = (Term.node head children).located ∧
      t.postorder t.root = List.range t.nodes.size ∧ t.root + 1 = t.nodes.size := by
  have hok := h
  obtain ⟨_, hguard, h⟩ := bind_eq_ok_iff.mp h
  obtain ⟨⟨head, children⟩, hread, h⟩ := bind_eq_ok_iff.mp h
  obtain ⟨⟨root, b⟩, hadd, -⟩ := bind_eq_ok_iff.mp h
  have hfits := fits_of_addNode_of hadd fun slots b' h => fits_of_addChildren children slots h
  obtain ⟨t', ht', hunfolds⟩ := ofDump_of_fits hguard hread hfits.2
  obtain rfl : t' = t := Except.ok.inj (ht'.symm.trans hok)
  exact ⟨head, children, hguard, hread, hunfolds⟩

/-- A dump that is accepted is, from its first character to its last, a form of the term that the
tree unfolds to from its root, and the tree has no other nodes. -/
theorem ofDump_derives {path source dump : String} {t : Tree}
    (h : ofDump path source dump = .ok t) :
    ∃ head children, LooseDump (fun _ => True) head children dump.toList ∧
      t.path = path ∧ t.source = source ∧
      t.term t.root = (Term.node head children).located ∧
      t.postorder t.root = List.range t.nodes.size ∧ t.root + 1 = t.nodes.size := by
  obtain ⟨head, children, -, hread, hunfolds⟩ := unfolds_of_ofDump h
  exact ⟨head, children, looseDump_of_read hread, hunfolds⟩

/-- A quote in a bare symbol, a number with a fraction, and terms that follow each other at once. -/
theorem ofDump_derives_adjacent :
    let dump := "(a @0..3 :x\"y(b~2..3)1.5\"z\")\n"
    ∃ t, ofDump "a.rb" "p x" dump = .ok t ∧
      ∃ head children, LooseDump (fun _ => True) head children dump.toList ∧
        t.path = "a.rb" ∧ t.source = "p x" ∧
        t.term t.root = (Term.node head children).located ∧
        t.postorder t.root = List.range t.nodes.size ∧ t.root + 1 = t.nodes.size := by
  intro dump
  have hread : Dump.read dump = .ok (⟨"a", some (0, 3), none⟩, [.literal (.sym "x\"y"),
      .node ⟨"b", none, some (2, 3)⟩ [], .literal (.float 4609434218613702656),
      .literal (.str "z")]) := by cbv
  have hfits : ∀ k ∈ [(⟨"a", some (0, 3), none⟩ : Head), ⟨"b", none, some (2, 3)⟩],
      k.Fits "p x" := by
    simp only [List.mem_cons, List.not_mem_nil, or_false]
    rintro k (rfl | rfl)
    · exact ⟨by simp [BoundsFit]; decide, by simp⟩
    · exact ⟨by simp, by simp [BoundsFit]; decide⟩
  obtain ⟨t, ht, -⟩ := ofDump_of_fits (by decide +kernel) hread hfits
  exact ⟨t, ht, ofDump_derives ht⟩

end Tree
end SpecUpgrade
