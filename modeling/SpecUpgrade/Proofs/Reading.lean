import Mathlib.Data.List.TakeWhile
import SpecUpgrade.Proofs.Grammar

/-!
The reader reads every written form. It chooses in order and takes as much as it can, so each lemma
says what may follow a form: a character that cannot be taken for a part of it.
-/

namespace SpecUpgrade.Dump

/-! ## Runs -/

def termEnds : List Char := [' ', '\t', '\n', '\r', ')']

def headEnds : List Char := '@' :: '~' :: termEnds

def StartsIn (set : List Char) (cs : List Char) : Prop := ∃ c ∈ set, ∃ more, cs = c :: more

/-- A run that nothing behind it can prolong is taken as a whole. -/
theorem takeWhile_run {p : Char → Bool} {set run rest : List Char} (hrun : ∀ c ∈ run, p c = true)
    (hset : set.any p = false) (hrest : StartsIn set rest) :
    (run ++ rest).takeWhile p = run ∧ (run ++ rest).dropWhile p = rest := by
  obtain ⟨c, hc, more, rfl⟩ := hrest
  rw [List.takeWhile_append_of_pos hrun, List.dropWhile_append_of_pos hrun]
  simp [List.any_eq_false.mp hset c hc]

theorem mem_termEnds_of_isBlank {c : Char} (h : Json.isBlank c = true) : c ∈ termEnds := by
  simp only [Json.isBlank, Bool.or_eq_true, beq_iff_eq] at h
  rcases h with ((rfl | rfl) | rfl) | rfl <;> decide

theorem not_isBlank_of_run {p : Char → Bool} {c : Char} (hends : termEnds.any p = false)
    (hc : p c = true) : Json.isBlank c = false := by
  rw [Bool.eq_false_iff]
  intro hblank
  exact List.any_eq_false.mp hends c (mem_termEnds_of_isBlank hblank) hc

theorem Blanks.startsIn {ws : List Char} (h : Blanks ws) (hne : ws ≠ []) (cs : List Char) :
    StartsIn termEnds (ws ++ cs) := by
  cases ws with
  | nil => exact absurd rfl hne
  | cons c ws => exact ⟨c, mem_termEnds_of_isBlank (h c (by simp)), ws ++ cs, rfl⟩

theorem StartsIn.headEnds {cs : List Char} (h : StartsIn termEnds cs) : StartsIn headEnds cs := by
  obtain ⟨c, hc, more, rfl⟩ := h
  exact ⟨c, List.mem_cons_of_mem _ (List.mem_cons_of_mem _ hc), more, rfl⟩

theorem Marked.startsIn {mark : Char} {bounds : Option Bounds} {cs tail : List Char}
    (h : Marked mark bounds cs) (hmark : mark ∈ headEnds) (htail : StartsIn headEnds tail) :
    StartsIn headEnds (cs ++ tail) := by
  cases h with
  | missing => exact htail
  | @given ws front back start stop hws hfront hstart hback hstop =>
    cases ws with
    | nil => exact ⟨mark, hmark, _, rfl⟩
    | cons c ws =>
      have hstarts := hws.startsIn (List.cons_ne_nil c ws)
        (mark :: (front ++ '.' :: '.' :: back) ++ tail)
      simpa using hstarts.headEnds

theorem WrittenTerms.startsIn {terms : List Term} {cs rest : List Char} (h : WrittenTerms terms cs)
    (hrest : StartsIn termEnds rest) : StartsIn termEnds (cs ++ rest) := by
  cases h with
  | nil => exact hrest
  | literal hws hne hl hmore =>
    rw [List.append_assoc, List.append_assoc]
    exact hws.startsIn hne _
  | node hws hne hhead hchildren hclose hmore =>
    rw [List.append_assoc, List.append_assoc]
    exact hws.startsIn hne _

theorem skipBlank_append {ws : List Char} (h : Blanks ws) (cs : List Char) :
    Json.skipBlank (ws ++ cs) = Json.skipBlank cs :=
  List.dropWhile_append_of_pos h

theorem skipBlank_cons {c : Char} (h : Json.isBlank c = false) (cs : List Char) :
    Json.skipBlank (c :: cs) = c :: cs := by
  rw [Json.skipBlank, List.dropWhile_cons_of_neg (by simp [h])]

/-! ## Numbers -/

theorem Decimal.value_eq {cs : List Char} {n : Nat} (h : Decimal cs n) : value cs = n := by
  have hdigit : ∀ d < 10, Json.digitValue (Nat.digitChar d) = d := by decide
  induction h with
  | digit d hd => simp [value, hdigit d hd]
  | more hcs d hd ih =>
    rw [value, List.foldl_append]
    rw [value] at ih
    simp [ih, hdigit d hd]

theorem value_repr (n : Nat) : value (Nat.repr n).toList = n := by
  have hread := Nat.ofDigitChars_ten_toDigits (n := n)
  rw [Nat.ofDigitChars_eq_foldl, ← Nat.toList_repr] at hread
  simpa only [value, Json.digitValue, Nat.mul_comm 10] using hread

theorem Decimal.cons {cs : List Char} {n : Nat} (h : Decimal cs n) :
    ∃ c more, cs = c :: more ∧ c.isDigit = true := by
  have hne : cs ≠ [] := by
    cases h with
    | digit d hd => simp
    | more hcs d hd => simp
  obtain ⟨c, more, rfl⟩ := List.exists_cons_of_ne_nil hne
  exact ⟨c, more, rfl, h.isDigit c (by simp)⟩

theorem readNat_append {cs rest : List Char} {n : Nat} (h : Decimal cs n) (hn : n < Word.bound64)
    {set : List Char} (hset : set.any Char.isDigit = false) (hrest : StartsIn set rest) :
    readNat (cs ++ rest) = some (n, rest) := by
  obtain ⟨htake, hdrop⟩ := takeWhile_run h.isDigit hset hrest
  obtain ⟨c, more, hcons, -⟩ := h.cons
  have hfits : ¬(cs.isEmpty = true ∨ Word.bound64 ≤ n) := by
    rw [hcons]
    simp only [List.isEmpty_cons, Bool.false_eq_true, false_or]
    omega
  rw [readNat, htake, hdrop, h.value_eq, if_neg hfits]

theorem readBounds_append {front back rest : List Char} {start stop : Nat}
    (hfront : Decimal front start) (hstart : start < Word.bound64) (hback : Decimal back stop)
    (hstop : stop < Word.bound64) (hrest : StartsIn headEnds rest) :
    readBounds (front ++ '.' :: '.' :: back ++ rest) = some ((start, stop), rest) := by
  have hpoint : StartsIn ['.'] ('.' :: '.' :: (back ++ rest)) := ⟨'.', by simp, _, rfl⟩
  have hread := readNat_append hfront hstart (by decide) hpoint
  have hread' := readNat_append hback hstop (by decide) hrest
  simp only [readBounds, List.append_assoc, List.cons_append, hread, Option.bind_eq_bind,
    Option.bind_some, hread', Option.pure_def]

/-- Bounds are read where they stand. -/
theorem readMarked_given {mark : Char} {start stop : Nat} {cs rest : List Char}
    (h : Marked mark (some (start, stop)) cs) (hmark : Json.isBlank mark = false)
    (hrest : StartsIn headEnds rest) :
    readMarked mark (cs ++ rest) = (some (start, stop), rest) := by
  cases h with
  | given hws hfront hstart hback hstop =>
    have hread := readBounds_append hfront hstart hback hstop hrest
    rw [readMarked, List.append_assoc, skipBlank_append hws, List.cons_append,
      skipBlank_cons hmark]
    simp only [if_pos, hread]

/-- Where another character shows up first nothing is taken. -/
theorem readMarked_missing {mark c : Char} {cs more : List Char}
    (hshows : Json.skipBlank cs = c :: more) (hc : c ≠ mark) :
    readMarked mark cs = (none, cs) := by
  rw [readMarked, hshows]
  simp only [if_neg hc]

/-! ## Texts -/

private theorem decodePieces_unit {u : Nat} (hu : u < 0xD800 ∨ 0xDFFF < u)
    (pieces : List Json.Piece) :
    Json.decodePieces (.unit u :: pieces) =
      (Json.decodePieces pieces).map (Char.ofNat u :: ·) := by
  cases pieces with
  | nil => rw [Json.decodePieces.eq_def]; simp [hu]
  | cons piece pieces =>
    cases piece with
    | char c => rw [Json.decodePieces.eq_def]; simp [hu]
    | unit v => rw [Json.decodePieces, if_pos hu]

private theorem readPieces_unit {a b c d : Char} {u : Nat} (hu : Json.hexUnit? a b c d = some u)
    (cs : List Char) :
    Json.readPieces ('\\' :: 'u' :: a :: b :: c :: d :: cs) =
      (Json.readPieces cs).map fun (pieces, rest) => (.unit u :: pieces, rest) := by
  rw [Json.readPieces, hu]
  cases Json.readPieces cs <;> rfl

/-- What stands between quotes is read up to the quote that ends it, and denotes its text. -/
theorem Quoted.readPieces {written text : List Char} (h : Quoted written text) (rest : List Char) :
    ∃ pieces, Json.readPieces (written ++ '"' :: rest) = some (pieces, rest) ∧
      Json.decodePieces pieces = some text := by
  induction h with
  | nil => exact ⟨[], by simp [Json.readPieces], rfl⟩
  | @plain c written text hquote hslash hcontrol hrest ih =>
    obtain ⟨pieces, hread, hdecode⟩ := ih
    refine ⟨.char c :: pieces, ?_, by simp [Json.decodePieces, hdecode]⟩
    have hvisible : ¬c.toNat < 0x20 := by omega
    rw [List.cons_append, Json.readPieces]
    · simp [hvisible, hread]
    · exact hquote
    · rintro a b d e rest' rfl
      exact absurd rfl hslash
    · rintro a rest' rfl
      exact absurd rfl hslash
  | @escape e c written text he hrest ih =>
    obtain ⟨pieces, hread, hdecode⟩ := ih
    refine ⟨.char c :: pieces, ?_, by simp [Json.decodePieces, hdecode]⟩
    have hne : e ≠ 'u' := by
      rintro rfl
      exact absurd he (by simp [Json.escaped?])
    rw [List.cons_append, List.cons_append, Json.readPieces]
    · simp [he, hread]
    · rintro a b d f rest' ⟨⟩
      exact absurd rfl hne
  | @unit a b c d u written text hu hchar hrest ih =>
    obtain ⟨pieces, hread, hdecode⟩ := ih
    refine ⟨.unit u :: pieces, ?_, by rw [decodePieces_unit hchar, hdecode]; rfl⟩
    simp only [List.cons_append]
    rw [readPieces_unit hu, hread]
    rfl
  | @pair a b c d a' b' c' d' u v written text hu hhigh hv hlow hrest ih =>
    obtain ⟨pieces, hread, hdecode⟩ := ih
    refine ⟨.unit u :: .unit v :: pieces, ?_, ?_⟩
    · simp only [List.cons_append]
      rw [readPieces_unit hu, readPieces_unit hv, hread]
      rfl
    · rw [Json.decodePieces, if_neg (by omega), if_pos (by omega), hdecode]
      rfl

theorem readString_quote {written : List Char} {text : String} (h : Quoted written text.toList)
    (rest : List Char) : readString (quote written ++ rest) = some (text, rest) := by
  obtain ⟨pieces, hread, hdecode⟩ := h.readPieces rest
  simp [quote, readString, hread, Json.textOfPieces?, hdecode]

/-! ## Literals -/

private theorem isNumberChar_of_isDigit {c : Char} (h : c.isDigit = true) :
    isNumberChar c = true := by
  simp [isNumberChar, h]

theorem readNumber_append (negative : Bool) {cs rest : List Char} {n : Nat} (h : Decimal cs n)
    (hlow : -(Word.half64 : Int) ≤ if negative then -(n : Int) else n)
    (hhigh : (if negative then -(n : Int) else n) < Word.half64)
    (hrest : StartsIn termEnds rest) :
    readNumber negative (cs ++ rest) =
      some (.int (if negative then -(n : Int) else n), rest) := by
  obtain ⟨htake, hdrop⟩ := takeWhile_run (p := isNumberChar)
    (fun c hc => isNumberChar_of_isDigit (h.isDigit c hc)) (by decide) hrest
  have hdigits : cs.all Char.isDigit = true := List.all_eq_true.mpr h.isDigit
  have hnumber : number? negative cs = some (.int (if negative then -(n : Int) else n)) := by
    simp only [number?, h.value_eq, hdigits, hlow, hhigh, decide_true, Bool.and_self, if_pos]
  obtain ⟨c, more, hcons, hdigit⟩ := h.cons
  rw [hcons, List.cons_append] at htake hdrop ⊢
  rw [hcons] at hnumber
  rw [readNumber]
  simp only [hdigit, if_pos, htake, hdrop, hnumber, Option.map_some]

theorem readWord_append {word rest : List Char} (hword : ∀ c ∈ word, c.isAlpha = true)
    (hrest : StartsIn termEnds rest) :
    readWord (word ++ rest) = (readWord word).map fun (l, _) => (l, rest) := by
  obtain ⟨htake, hdrop⟩ := takeWhile_run hword (by decide) hrest
  rw [readWord, htake, hdrop, readWord, List.takeWhile_eq_self_iff.mpr hword]
  split <;> rfl

theorem readSymbol_bare {name : String} {rest : List Char} (hne : name.toList ≠ [])
    (hname : ∀ c ∈ name.toList, BareChar c) (hrest : StartsIn termEnds rest) :
    readSymbol (name.toList ++ rest) = some (name, rest) := by
  have hrun : ∀ c ∈ name.toList, isSymbolChar c = true := by
    intro c hc
    obtain ⟨hblank, hopen, hclose, -⟩ := hname c hc
    simp [isSymbolChar, hblank, hopen, hclose]
  obtain ⟨htake, hdrop⟩ := takeWhile_run hrun (by decide) hrest
  obtain ⟨c, more, hcons⟩ := List.exists_cons_of_ne_nil hne
  have hstring : readString (name.toList ++ rest) = none := by
    have hquote := (hname c (by simp [hcons])).2.2.2
    rw [hcons, List.cons_append, readString]
    intro rest' heq
    exact hquote (List.cons.inj heq).1
  have hempty : name.toList.isEmpty = false := by rw [hcons, List.isEmpty_cons]
  rw [readSymbol, hstring]
  simp only [htake, hdrop, hempty, Bool.false_eq_true, if_false, String.ofList_toList]

/-- A literal is read up to a blank or a parenthesis behind it. -/
theorem WrittenLiteral.readLiteral {l : Literal} {cs rest : List Char} (h : WrittenLiteral l cs)
    (hrest : StartsIn termEnds rest) : readLiteral (cs ++ rest) = some (l, rest) := by
  cases h with
  | nil =>
    have hword : ∀ c ∈ ['n', 'i', 'l'], c.isAlpha = true := by simp
    exact readWord_append hword hrest
  | yes =>
    have hword : ∀ c ∈ ['t', 'r', 'u', 'e'], c.isAlpha = true := by simp
    exact readWord_append hword hrest
  | no =>
    have hword : ∀ c ∈ ['f', 'a', 'l', 's', 'e'], c.isAlpha = true := by simp
    exact readWord_append hword hrest
  | @int cs n hcs hn =>
    have hlow : -(Word.half64 : Int) ≤ (n : Int) := by omega
    have hhigh : (n : Int) < Word.half64 := by omega
    have hnumber := readNumber_append false hcs hlow hhigh hrest
    obtain ⟨c, more, rfl, hdigit⟩ := hcs.cons
    rw [List.cons_append, Dump.readLiteral, if_pos hdigit]
    · exact hnumber
    all_goals
      rintro rfl
      exact absurd hdigit (by decide)
  | @negative cs n hcs hn =>
    have hlow : -(Word.half64 : Int) ≤ -(n : Int) := by omega
    have hhigh : -(n : Int) < Word.half64 := by
      have : 0 < Word.half64 := by decide
      omega
    exact readNumber_append true hcs hlow hhigh hrest
  | bare hne hname =>
    rw [List.cons_append, Dump.readLiteral, readSymbol_bare hne hname hrest]
    rfl
  | quoted hname =>
    rw [List.cons_append, Dump.readLiteral, readSymbol, readString_quote hname]
    rfl
  | str htext =>
    have hstring := readString_quote htext rest
    rw [quote, List.cons_append] at hstring ⊢
    rw [Dump.readLiteral, hstring]
    rfl

/-! ## Nodes -/

theorem starts_of_isDigit {c : Char} (h : c.isDigit = true) :
    Json.isBlank c = false ∧ c ∉ ['(', ')', '@', '~'] := by
  refine ⟨not_isBlank_of_run (by decide) h, fun hmem => ?_⟩
  simp only [List.mem_cons, List.not_mem_nil, or_false] at hmem
  rcases hmem with rfl | rfl | rfl | rfl <;> exact absurd h (by decide)

/-- What a literal starts with is no blank and starts neither a node nor its bounds nor its end. -/
theorem WrittenLiteral.first {l : Literal} {cs : List Char} (h : WrittenLiteral l cs) :
    ∃ c more, cs = c :: more ∧ Json.isBlank c = false ∧ c ∉ ['(', ')', '@', '~'] := by
  cases h with
  | nil => exact ⟨_, _, rfl, by decide, by decide⟩
  | yes => exact ⟨_, _, rfl, by decide, by decide⟩
  | no => exact ⟨_, _, rfl, by decide, by decide⟩
  | int hcs hn =>
    obtain ⟨c, more, rfl, hdigit⟩ := hcs.cons
    exact ⟨c, more, rfl, starts_of_isDigit hdigit⟩
  | negative hcs hn => exact ⟨_, _, rfl, by decide, by decide⟩
  | bare hne hname => exact ⟨_, _, rfl, by decide, by decide⟩
  | quoted hname => exact ⟨_, _, rfl, by decide, by decide⟩
  | str htext => exact ⟨_, _, rfl, by decide, by decide⟩

/-- What stands after the children of a node. -/
def Closes (rest : List Char) : Prop := ∃ ws more, Blanks ws ∧ rest = ws ++ ')' :: more

theorem Closes.startsIn {rest : List Char} (h : Closes rest) : StartsIn termEnds rest := by
  obtain ⟨ws, more, hws, rfl⟩ := h
  cases ws with
  | nil => exact ⟨')', by decide, more, rfl⟩
  | cons c ws => exact hws.startsIn (List.cons_ne_nil c ws) _

/-- Before the children of a node and its end no bounds show up. -/
theorem WrittenTerms.shows {terms : List Term} {cs rest : List Char} (h : WrittenTerms terms cs)
    (hrest : Closes rest) :
    ∃ c more, Json.skipBlank (cs ++ rest) = c :: more ∧ c ≠ '@' ∧ c ≠ '~' := by
  cases h with
  | nil =>
    obtain ⟨ws, more, hws, rfl⟩ := hrest
    rw [List.nil_append, skipBlank_append hws, skipBlank_cons (by decide)]
    exact ⟨_, _, rfl, by decide, by decide⟩
  | literal hws hne hl hmore =>
    obtain ⟨c, more, rfl, hblank, hmark⟩ := hl.first
    rw [List.append_assoc, List.append_assoc, skipBlank_append hws, List.cons_append,
      skipBlank_cons hblank]
    refine ⟨c, _, rfl, ?_, ?_⟩
    · rintro rfl
      exact hmark (by decide)
    · rintro rfl
      exact hmark (by decide)
  | node hws hne hhead hchildren hclose hmore =>
    rw [List.append_assoc, List.append_assoc, skipBlank_append hws, parenthesize, List.cons_append,
      skipBlank_cons (by decide)]
    exact ⟨_, _, rfl, by decide, by decide⟩

/-- The mark of a node's bounds, if it has them, is read; nothing is read if it has none. -/
theorem readMarked_append {mark : Char} {bounds : Option Bounds} {cs rest : List Char}
    (h : Marked mark bounds cs) (hmark : Json.isBlank mark = false)
    (hrest : StartsIn headEnds rest)
    (hshows : ∃ c more, Json.skipBlank rest = c :: more ∧ c ≠ mark) :
    readMarked mark (cs ++ rest) = (bounds, rest) := by
  cases bounds with
  | none =>
    cases h
    obtain ⟨c, more, hskip, hc⟩ := hshows
    exact readMarked_missing hskip hc
  | some bounds => exact readMarked_given h hmark hrest

/-- A node is read when its children are. -/
theorem readNode_append {head : Head} {children : List Term} {front inner close : List Char}
    (hhead : WrittenHead head front) (hwritten : WrittenTerms children inner)
    (hclose : Blanks close) {fuel : Nat} {rest : List Char}
    (hchildren : ∀ rest, Closes rest → readChildren fuel (inner ++ rest) = (children, rest)) :
    readNode (fuel + 1) (parenthesize front inner close ++ rest) =
      .ok ((head, children), rest) := by
  cases hhead with
  | @mk kind range heredoc ws front back hws hne hkind hrange hheredoc =>
    have hend : Closes (close ++ ')' :: rest) := ⟨close, rest, hclose, rfl⟩
    have hstarts : StartsIn headEnds (inner ++ (close ++ ')' :: rest)) :=
      (hwritten.startsIn hend.startsIn).headEnds
    obtain ⟨c, more, hshows, hrangeMark, hheredocMark⟩ := hwritten.shows hend
    have hbody : readMarked '~' (back ++ (inner ++ (close ++ ')' :: rest))) =
        (heredoc, inner ++ (close ++ ')' :: rest)) :=
      readMarked_append hheredoc (by decide) hstarts ⟨c, more, hshows, hheredocMark⟩
    have hstarts' : StartsIn headEnds (back ++ (inner ++ (close ++ ')' :: rest))) :=
      hheredoc.startsIn (by decide) hstarts
    have hplace : readMarked '@' (front ++ (back ++ (inner ++ (close ++ ')' :: rest)))) =
        (range, back ++ (inner ++ (close ++ ')' :: rest))) := by
      apply readMarked_append hrange (by decide) hstarts'
      cases hheredoc with
      | missing => exact ⟨c, more, hshows, hrangeMark⟩
      | given hws hfront hstart hback hstop =>
        rw [List.append_assoc, skipBlank_append hws, List.cons_append, skipBlank_cons (by decide)]
        exact ⟨_, _, rfl, by decide⟩
    have hrun : ∀ c ∈ kind.toList, isKindChar c = true := by
      intro c hc
      simpa [isKindChar] using hkind c hc
    obtain ⟨htake, hdrop⟩ := takeWhile_run hrun (by decide) (hrange.startsIn (by decide) hstarts')
    have hskip : Json.skipBlank (ws ++ (kind.toList ++ (front ++ (back ++
        (inner ++ (close ++ ')' :: rest)))))) =
        kind.toList ++ (front ++ (back ++ (inner ++ (close ++ ')' :: rest)))) := by
      obtain ⟨k, kinds, hcons⟩ := List.exists_cons_of_ne_nil hne
      have hblank : Json.isBlank k = false :=
        not_isBlank_of_run (by decide) (hrun k (by simp [hcons]))
      rw [skipBlank_append hws, hcons, List.cons_append, skipBlank_cons hblank]
    have hempty : kind.toList.isEmpty = false := by
      obtain ⟨k, kinds, hcons⟩ := List.exists_cons_of_ne_nil hne
      rw [hcons, List.isEmpty_cons]
    have hclosing : Json.skipBlank (close ++ ')' :: rest) = ')' :: rest := by
      rw [skipBlank_append hclose, skipBlank_cons (by decide)]
    simp only [parenthesize, List.cons_append, List.append_assoc, List.nil_append, readNode, hskip,
      htake, hdrop, hempty, hplace, hbody, hchildren _ hend, hclosing, Bool.false_eq_true, if_false,
      String.ofList_toList]

private theorem readTerm_literal {l : Literal} {cs rest : List Char} (h : WrittenLiteral l cs)
    (hrest : StartsIn termEnds rest) (fuel : Nat) :
    readTerm (fuel + 1) (cs ++ rest) = some (.literal l, rest) := by
  have hread := h.readLiteral hrest
  obtain ⟨c, more, rfl, -, hmark⟩ := h.first
  have hnode : ∃ fault, readNode fuel (c :: more ++ rest) = .error fault := by
    cases fuel with
    | zero => exact ⟨_, by rw [readNode]⟩
    | succ fuel =>
      refine ⟨c :: more ++ rest, ?_⟩
      rw [List.cons_append, readNode]
      rintro rest' ⟨⟩
      exact hmark (by decide)
  obtain ⟨fault, hnode⟩ := hnode
  rw [readTerm, hnode, hread]
  rfl

/-- At the end of a node there is no further child. -/
private theorem readTerm_closing (fuel : Nat) (more : List Char) :
    readTerm fuel (')' :: more) = none := by
  cases fuel with
  | zero => rw [readTerm]
  | succ fuel =>
    have hnode : ∃ fault, readNode fuel (')' :: more) = .error fault := by
      cases fuel with
      | zero => exact ⟨_, by rw [readNode]⟩
      | succ fuel => exact ⟨_, by rw [readNode]; simp⟩
    obtain ⟨fault, hnode⟩ := hnode
    rw [readTerm, hnode]
    rfl

/-- All children of a node are read. A child takes three steps and at least two characters, so three
steps for every character are enough. -/
theorem WrittenTerms.readChildren {terms : List Term} {cs : List Char} (h : WrittenTerms terms cs)
    {fuel : Nat} (hfuel : 3 * cs.length ≤ fuel) {rest : List Char} (hrest : Closes rest) :
    readChildren fuel (cs ++ rest) = (terms, rest) := by
  induction h generalizing fuel rest with
  | nil =>
    cases fuel with
    | zero => rw [List.nil_append, Dump.readChildren]
    | succ fuel =>
      obtain ⟨ws, more, hws, rfl⟩ := hrest
      rw [List.nil_append, Dump.readChildren, skipBlank_append hws, skipBlank_cons (by decide),
        readTerm_closing]
  | @literal l terms ws cs more hws hne hl hmore ih =>
    have hlength := List.length_pos_iff.mpr hne
    simp only [List.length_append] at hfuel
    obtain ⟨fuel, rfl⟩ : ∃ n, fuel = n + 2 := ⟨fuel - 2, by omega⟩
    obtain ⟨c, first, rfl, hblank, -⟩ := hl.first
    have hterm := readTerm_literal hl (hmore.startsIn hrest.startsIn) fuel
    have hothers : Dump.readChildren (fuel + 1) (more ++ rest) = (terms, rest) :=
      ih (by simp only [List.length_cons] at hfuel; omega) hrest
    rw [Dump.readChildren, List.append_assoc, List.append_assoc, skipBlank_append hws,
      List.cons_append, skipBlank_cons hblank, ← List.cons_append, hterm]
    simp only [hothers]
  | @node head children terms ws front inner close more hws hne hhead hchildren hclose hmore
      ihchildren ihmore =>
    have hlength := List.length_pos_iff.mpr hne
    simp only [List.length_append, parenthesize, List.length_cons, List.length_nil] at hfuel
    obtain ⟨fuel, rfl⟩ : ∃ n, fuel = n + 3 := ⟨fuel - 3, by omega⟩
    have hnode : readNode (fuel + 1) (parenthesize front inner close ++ (more ++ rest)) =
        .ok ((head, children), more ++ rest) :=
      readNode_append hhead hchildren hclose fun rest hrest => ihchildren (by omega) hrest
    have hothers : Dump.readChildren (fuel + 2) (more ++ rest) = (terms, rest) :=
      ihmore (by omega) hrest
    have hskip : Json.skipBlank (parenthesize front inner close ++ (more ++ rest)) =
        parenthesize front inner close ++ (more ++ rest) := skipBlank_cons (by decide) _
    rw [Dump.readChildren, List.append_assoc, List.append_assoc, skipBlank_append hws, hskip,
      readTerm, hnode]
    simp only [hothers]

/-- Every written form of a tree is read as that tree. -/
theorem WrittenDump.read {head : Head} {children : List Term} {dump : String}
    (h : WrittenDump head children dump.toList) : Dump.read dump = .ok (head, children) := by
  generalize hcs : dump.toList = cs at h
  cases h with
  | @mk before front inner close after hbefore hhead hchildren hclose hafter =>
    have hlength : inner.length ≤ dump.toList.length := by
      simp only [hcs, parenthesize, List.length_append, List.length_cons]
      omega
    have hnode : readNode (3 * dump.toList.length + 3) (parenthesize front inner close ++ after) =
        .ok ((head, children), after) :=
      readNode_append hhead hchildren hclose fun rest hrest =>
        hchildren.readChildren (by omega) hrest
    have hskip : Json.skipBlank dump.toList = parenthesize front inner close ++ after := by
      rw [hcs, List.append_assoc, skipBlank_append hbefore]
      exact skipBlank_cons (by decide) _
    have hend : Json.skipBlank after = [] := List.dropWhile_eq_nil_iff.mpr hafter
    simp only [Dump.read, hskip, hnode, hend]

end SpecUpgrade.Dump
