import Mathlib.Data.List.DropRight
import SpecUpgrade.Json.Document
import SpecUpgrade.Proofs.Bytes
import SpecUpgrade.Proofs.Reading

/-!
A document that is written out is read back. The reader is told to skip blanks and to take as much as
it can, so what matters is where a value ends: behind it stands a comma, a line feed or nothing at
all. Strings come back for any characters, integers as long as a word holds them, and containers as
deep as the reader follows them.
-/

namespace SpecUpgrade

namespace Json

/-- What may follow a value: a comma, a line feed or nothing. -/
def Ends (rest : List Char) : Prop := rest = [] ∨ Dump.StartsIn [',', '\n'] rest

theorem takeWhile_ends {p : Char → Bool} {run rest : List Char} (hrun : ∀ c ∈ run, p c = true)
    (hends : [',', '\n'].any p = false) (hrest : Ends rest) :
    (run ++ rest).takeWhile p = run ∧ (run ++ rest).dropWhile p = rest := by
  rcases hrest with rfl | hrest
  · rw [List.append_nil]
    exact ⟨List.takeWhile_eq_self_iff.mpr hrun, List.dropWhile_eq_nil_iff.mpr hrun⟩
  · exact Dump.takeWhile_run hrun hends hrest

/-! ## Numbers -/

/-- The digits of a number that is not zero start with one that is not zero. -/
theorem toDigits_eq_cons {n : Nat} (h : 0 < n) :
    ∃ d more, Nat.toDigits 10 n = Nat.digitChar d :: more ∧ 0 < d ∧ d < 10 := by
  induction n using Nat.strongRecOn with
  | ind n ih =>
    by_cases hn : n < 10
    · exact ⟨n, [], Nat.toDigits_of_lt_base hn, h, hn⟩
    · obtain ⟨d, more, hfront, hd⟩ := ih (n / 10) (by omega) (by omega)
      refine ⟨d, more ++ [Nat.digitChar (n % 10)], ?_, hd⟩
      rw [Nat.toDigits_of_base_le (by decide) (by omega), hfront, List.cons_append]

theorem spanDigits_repr (n : Nat) {rest : List Char} (hrest : Ends rest) :
    spanDigits ((Nat.repr n).toList ++ rest) = ((Nat.repr n).toList.map digitValue, rest) := by
  obtain ⟨htake, hdrop⟩ :=
    takeWhile_ends (fun c hc => Text.isDigit_of_mem_repr (n := n) hc) (by decide) hrest
  rw [spanDigits, htake, hdrop]

theorem readWhole_repr (n : Nat) {rest : List Char} (hrest : Ends rest) :
    readWhole ((Nat.repr n).toList ++ rest) =
      some ((Nat.repr n).toList.map digitValue, rest) := by
  have hdigit : ∀ d < 10, digitValue (Nat.digitChar d) = d := by decide
  rw [readWhole, spanDigits_repr n hrest, Nat.toList_repr]
  rcases Nat.eq_zero_or_pos n with rfl | hn
  · rfl
  · obtain ⟨d, more, hdigits, hpos, hlt⟩ := toDigits_eq_cons hn
    obtain ⟨d, rfl⟩ := Nat.exists_eq_add_one.mpr hpos
    rw [hdigits, List.map_cons, hdigit _ hlt]
    rfl

/-- Behind a whole number there is neither a fraction nor an exponent. -/
theorem readMagnitude_repr (negative : Bool) (n : Nat) {rest : List Char} (hrest : Ends rest) :
    readMagnitude negative ((Nat.repr n).toList ++ rest) =
      some (⟨negative, (Nat.repr n).toList.map digitValue, [], none⟩, rest) := by
  have hfraction : readFraction rest = some ([], rest) := by
    obtain rfl | ⟨c, hc, more, rfl⟩ := hrest
    · rfl
    · rw [readFraction]
      rintro rest' ⟨⟩
      exact absurd hc (by decide)
  have hexponent : readExponent rest = some (none, rest) := by
    obtain rfl | ⟨c, hc, more, rfl⟩ := hrest
    · rfl
    · simp only [List.mem_cons, List.not_mem_nil, or_false] at hc
      rcases hc with rfl | rfl <;> rfl
  simp only [readMagnitude, readWhole_repr n hrest, hfraction, hexponent, Option.bind_eq_bind,
    Option.bind_some, Option.pure_def]

namespace Number

/-- While a number fits a word, all its digits are gathered. -/
theorem gather_eq {digits : List Nat} {significand : Nat}
    (h : digits.foldl (fun n d => n * 10 + d) significand < Word.bound64) :
    gather significand digits = (digits.foldl (fun n d => n * 10 + d) significand, []) := by
  -- What the first digits make fits the word, too, because the others only add to it.
  have hgrows : ∀ (ds : List Nat) (s : Nat), s ≤ ds.foldl (fun n d => n * 10 + d) s := by
    intro ds
    induction ds with
    | nil => exact fun s => Nat.le_refl s
    | cons d ds ih =>
      intro s
      have hrest := ih (s * 10 + d)
      rw [List.foldl_cons]
      omega
  induction digits generalizing significand with
  | nil => rfl
  | cons d ds ih =>
    rw [List.foldl_cons] at h ⊢
    have hnext := hgrows ds (significand * 10 + d)
    rw [gather, if_pos (by omega), ih h]

theorem gather_repr {n : Nat} (hn : n < Word.bound64) :
    gather 0 ((Nat.repr n).toList.map digitValue) = (n, []) := by
  have hvalue : ((Nat.repr n).toList.map digitValue).foldl (fun n d => n * 10 + d) 0 = n := by
    rw [List.foldl_map]
    exact Dump.value_repr n
  rw [gather_eq (by rwa [hvalue]), hvalue]

theorem ofNumeral?_repr {n : Nat} (hn : n < Word.bound64) :
    ofNumeral? ⟨false, (Nat.repr n).toList.map digitValue, [], none⟩ = some (.int n) := by
  simp only [ofNumeral?, gather_repr hn, Bool.not_false, if_true]

theorem ofNumeral?_negative {n : Nat} (hpos : 0 < n) (hn : n ≤ Word.half64) :
    ofNumeral? ⟨true, (Nat.repr n).toList.map digitValue, [], none⟩ = some (.int (-(n : Int))) := by
  have hword : n < Word.bound64 := Nat.lt_of_le_of_lt hn (by decide)
  have hfits : ¬(n = 0 ∨ Word.half64 < n) := by omega
  simp only [ofNumeral?, gather_repr hword, Bool.not_true, Bool.false_eq_true, if_false,
    if_neg hfits]

end Number

/-- An integer that a word holds, with or without a sign, is read back. -/
theorem readNumeral_int {n : Int} (hlow : -(Word.half64 : Int) ≤ n) (hhigh : n < Word.bound64)
    {rest : List Char} (hrest : Ends rest) :
    ∃ numeral, readNumeral ((toString n).toList ++ rest) = some (numeral, rest) ∧
      Number.ofNumeral? numeral = some (.int n) := by
  cases n with
  | ofNat n =>
    have hwritten : (toString (Int.ofNat n)).toList = (Nat.repr n).toList := rfl
    refine ⟨_, ?_, Number.ofNumeral?_repr (by exact Int.ofNat_lt.mp hhigh)⟩
    rw [hwritten, readNumeral, readMagnitude_repr false n hrest]
    intro rest' hsign
    have hread := readMagnitude_repr false n hrest
    rw [hsign] at hread
    cases hread
  | negSucc n =>
    have hwritten : (toString (Int.negSucc n)).toList = '-' :: (Nat.repr (n + 1)).toList := by
      rw [show toString (Int.negSucc n) = "-" ++ Nat.repr (n + 1) from rfl, String.toList_append]
      rfl
    have hn : n + 1 ≤ Word.half64 := by omega
    refine ⟨_, ?_, Number.ofNumeral?_negative (Nat.succ_pos n) hn⟩
    rw [hwritten, List.cons_append, readNumeral, readMagnitude_repr true (n + 1) hrest]

/-! ## Containers -/

section Containers

variable {fuel : Nat} {cs rest : List Char}

theorem skipBlank_skipBlank (cs : List Char) : skipBlank (skipBlank cs) = skipBlank cs :=
  List.dropWhile_idempotent isBlank cs

theorem readForm_skipBlank (fuel : Nat) (cs : List Char) :
    readForm fuel (skipBlank cs) = readForm fuel cs := by
  cases fuel with
  | zero => rfl
  | succ fuel => rw [readForm, readForm, skipBlank_skipBlank]

theorem readItems_skipBlank (fuel : Nat) (cs : List Char) :
    readItems fuel (skipBlank cs) = readItems fuel cs := by
  cases fuel with
  | zero => rfl
  | succ fuel => rw [readItems, readItems, readForm_skipBlank]

theorem readMembers_skipBlank (fuel : Nat) (cs : List Char) :
    readMembers fuel (skipBlank cs) = readMembers fuel cs := by
  cases fuel with
  | zero => rfl
  | succ fuel => rw [readMembers, readMembers, skipBlank_skipBlank]

theorem readForm_blanks {ws : List Char} (hws : Dump.Blanks ws) (fuel : Nat) (cs : List Char) :
    readForm fuel (ws ++ cs) = readForm fuel cs := by
  rw [← readForm_skipBlank, Dump.skipBlank_append hws, readForm_skipBlank]

theorem readMembers_blanks {ws : List Char} (hws : Dump.Blanks ws) (fuel : Nat) (cs : List Char) :
    readMembers fuel (ws ++ cs) = readMembers fuel cs := by
  rw [← readMembers_skipBlank, Dump.skipBlank_append hws, readMembers_skipBlank]

/-- Nothing else starts as a number does. -/
theorem readForm_number {numeral : Numeral} (h : readNumeral cs = some (numeral, rest)) :
    readForm (fuel + 1) cs = some (.number numeral, rest) := by
  have hskip : skipBlank cs = cs := by
    cases cs with
    | nil => rfl
    | cons c cs =>
      refine Dump.skipBlank_cons (Bool.eq_false_iff.mpr fun hblank => ?_) cs
      simp only [isBlank, Bool.or_eq_true, beq_iff_eq] at hblank
      obtain ((rfl | rfl) | rfl) | rfl := hblank <;> cases h
  rw [readForm, hskip]
  split
  case h_7 => rw [h, Option.map_some]
  all_goals cases h

/-- No item starts with a closing bracket, so a list with items is not taken for an empty one. -/
theorem readForm_array {items : List Form} (h : readItems fuel cs = some (items, rest)) :
    readForm (fuel + 1) ('[' :: cs) = some (.array items, rest) := by
  rw [← readItems_skipBlank] at h
  rw [readForm, Dump.skipBlank_cons (by decide)]
  split
  case h_5 cs' hcs =>
    obtain rfl : cs = cs' := (List.cons.inj hcs).2
    split
    · rename_i hclose
      rw [hclose] at h
      cases fuel with
      | zero => cases h
      | succ fuel =>
        cases fuel with
        | zero => cases h
        | succ fuel => cases h
    · rw [h, Option.map_some]
  case h_7 hopen _ => exact absurd rfl (hopen cs)
  all_goals exact absurd ‹_ :: _ = _ :: _› (by simp)

/-- No member starts with a closing brace. -/
theorem readForm_object {members : List (List Piece × Form)}
    (h : readMembers fuel cs = some (members, rest)) :
    readForm (fuel + 1) ('\x7b' :: cs) = some (.object members, rest) := by
  rw [← readMembers_skipBlank] at h
  rw [readForm, Dump.skipBlank_cons (by decide)]
  split
  case h_6 cs' hcs =>
    obtain rfl : cs = cs' := (List.cons.inj hcs).2
    split
    · rename_i hclose
      rw [hclose] at h
      cases fuel with
      | zero => cases h
      | succ fuel => cases h
    · rw [h, Option.map_some]
  case h_7 hopen => exact absurd rfl (hopen cs)
  all_goals exact absurd ‹_ :: _ = _ :: _› (by simp)

theorem readItems_last {item : Form} {ws : List Char} (hws : Dump.Blanks ws)
    (h : readForm fuel cs = some (item, ws ++ ']' :: rest)) :
    readItems (fuel + 1) cs = some ([item], rest) := by
  rw [readItems, h]
  simp only [Option.bind_eq_bind, Option.bind_some, Dump.skipBlank_append hws]
  rfl

theorem readItems_more {item : Form} {items : List Form} {more : List Char}
    (h : readForm fuel cs = some (item, ',' :: more))
    (hmore : readItems fuel more = some (items, rest)) :
    readItems (fuel + 1) cs = some (item :: items, rest) := by
  rw [readItems, h]
  simp only [Option.bind_eq_bind, Option.bind_some, Dump.skipBlank_cons (c := ',') (by decide), hmore]
  rfl

theorem readMembers_last {written ws : List Char} {key : List Piece} {value : Form}
    (hkey : readPieces written = some (key, ':' :: cs)) (hws : Dump.Blanks ws)
    (h : readForm fuel cs = some (value, ws ++ '\x7d' :: rest)) :
    readMembers (fuel + 1) ('"' :: written) = some ([(key, value)], rest) := by
  rw [readMembers, Dump.skipBlank_cons (by decide)]
  simp only [hkey, h, Option.bind_eq_bind, Option.bind_some, Dump.skipBlank_append hws,
    Dump.skipBlank_cons (c := ':') (by decide)]
  rfl

theorem readMembers_more {written more : List Char} {key : List Piece} {value : Form}
    {members : List (List Piece × Form)} (hkey : readPieces written = some (key, ':' :: cs))
    (h : readForm fuel cs = some (value, ',' :: more))
    (hmore : readMembers fuel more = some (members, rest)) :
    readMembers (fuel + 1) ('"' :: written) = some ((key, value) :: members, rest) := by
  rw [readMembers, Dump.skipBlank_cons (by decide)]
  simp only [hkey, h, hmore, Option.bind_eq_bind, Option.bind_some,
    Dump.skipBlank_cons (c := ':') (by decide), Dump.skipBlank_cons (c := ',') (by decide)]
  rfl

end Containers

/-! ## Values -/

/-- The text of a value that nests no deeper than `depth`: it is read whatever follows it, in no
more steps than it has characters, and one. -/
def Reads (depth : Nat) (cs : List Char) (j : Json) : Prop :=
  ∀ fuel rest, cs.length < fuel → Ends rest →
    ∃ form, readForm fuel (cs ++ rest) = some (form, rest) ∧ ofForm? depth form = some j

/-- The reader takes a step for the value itself, so one is always left. -/
theorem reads_of_step {depth : Nat} {cs : List Char} {j : Json}
    (h : ∀ fuel rest, cs.length ≤ fuel → Ends rest →
      ∃ form, readForm (fuel + 1) (cs ++ rest) = some (form, rest) ∧ ofForm? depth form = some j) :
    Reads depth cs j := by
  intro fuel rest hfuel hrest
  obtain ⟨fuel, rfl⟩ := Nat.exists_eq_add_one.mpr (Nat.zero_lt_of_lt hfuel)
  exact h fuel rest (by omega) hrest

theorem Reads.behind {depth : Nat} {cs ws rest : List Char} {j : Json} (h : Reads depth cs j)
    (fuel : Nat) (hws : Dump.Blanks ws) (hfuel : cs.length < fuel) (hrest : Ends rest) :
    ∃ form, readForm fuel (ws ++ (cs ++ rest)) = some (form, rest) ∧
      ofForm? depth form = some j := by
  rw [readForm_blanks hws]
  exact h fuel rest hfuel hrest

/-- A value with nothing but blanks behind it is a whole text. -/
theorem Reads.ofText? {cs rest : List Char} {j : Json} (h : Reads maxDepth cs j)
    (hends : Ends rest) (hblanks : Dump.Blanks rest) :
    Json.ofText? (String.ofList (cs ++ rest)) = some j := by
  have hfuel : cs.length < 2 * (cs ++ rest).length + 2 := by
    rw [List.length_append]
    omega
  obtain ⟨form, hread, hvalue⟩ := h _ rest hfuel hends
  have hend : skipBlank rest = [] := List.dropWhile_eq_nil_iff.mpr hblanks
  simp only [Json.ofText?, Form.ofText?, String.toList_ofList, hread, hend, List.isEmpty_nil,
    Option.bind_eq_bind, Option.bind_some, if_true, hvalue]

/-- The text of the items of an array, at least one, whose closing bracket has a line of its own. -/
def ReadsItems (depth : Nat) (cs : List Char) (js : List Json) : Prop :=
  ∀ fuel ws rest, cs.length < fuel → Dump.Blanks ws →
    ∃ forms, readItems fuel (cs ++ '\n' :: (ws ++ ']' :: rest)) = some (forms, rest) ∧
      ofItems? depth forms = some js

/-- The text of the members of an object, likewise. -/
def ReadsMembers (depth : Nat) (cs : List Char) (members : List (String × Json)) : Prop :=
  ∀ fuel ws rest, cs.length < fuel → Dump.Blanks ws →
    ∃ forms, readMembers fuel (cs ++ '\n' :: (ws ++ '\x7d' :: rest)) = some (forms, rest) ∧
      ofMembers? depth forms = some members

end Json

namespace Document

open Json (Ends Reads ReadsItems ReadsMembers reads_of_step)

/-! ## Strings -/

/-- A character stands for itself or as an escape for it. -/
theorem quoted_escapeChar (c : Char) {written text : List Char} (h : Dump.Quoted written text) :
    Dump.Quoted (escapeChar c ++ written) (c :: text) := by
  have hunit : ∀ n < 32, Json.hexUnit? '0' '0' (hexChar (n / 16)) (hexChar (n % 16)) = some n := by
    decide
  unfold escapeChar
  split
  case h_8 hquote hslash _ _ _ _ _ =>
    split
    · rename_i hcontrol
      have hchar : c.toNat < 0xD800 := by omega
      have hread := Dump.Quoted.unit (hunit c.toNat hcontrol) (.inl hchar) h
      rwa [Char.ofNat_toNat] at hread
    · exact .plain hquote hslash (by omega) h
  all_goals exact .escape rfl h

theorem quoted_flatMap (text : List Char) : Dump.Quoted (text.flatMap escapeChar) text := by
  induction text with
  | nil => exact .nil
  | cons c text ih => exact quoted_escapeChar c ih

/-- A string literal is read up to its closing quote. -/
theorem readPieces_quote (s : String) (rest : List Char) :
    ∃ pieces, Json.readPieces (s.toList.flatMap escapeChar ++ '"' :: rest) = some (pieces, rest) ∧
      Json.textOfPieces? pieces = some s := by
  obtain ⟨pieces, hread, htext⟩ := (quoted_flatMap s.toList).readPieces rest
  exact ⟨pieces, hread, by rw [Json.textOfPieces?, htext, Option.map_some, String.ofList_toList]⟩

/-! ## Values -/

theorem blanks_indent (level : Nat) : Dump.Blanks (indent level) := by
  intro c hc
  rw [List.eq_of_mem_replicate hc]
  rfl

/-- The line on which an item or a bracket stands. -/
theorem blanks_line (level : Nat) : Dump.Blanks ('\n' :: indent level) :=
  List.forall_mem_cons.mpr ⟨rfl, blanks_indent level⟩

theorem blanks_space : Dump.Blanks [' '] := List.forall_mem_singleton.mpr rfl

theorem reads_null (depth : Nat) : Reads depth "null".toList .null :=
  reads_of_step fun _ _ _ _ => ⟨.null, rfl, by rw [Json.ofForm?]⟩

theorem reads_bool (depth : Nat) (b : Bool) :
    Reads depth (if b then "true" else "false").toList (.bool b) := by
  refine reads_of_step fun fuel rest _ _ => ?_
  cases b with
  | true => exact ⟨.bool true, rfl, by rw [Json.ofForm?]⟩
  | false => exact ⟨.bool false, rfl, by rw [Json.ofForm?]⟩

theorem reads_int (depth : Nat) {n : Int} (hlow : -(Word.half64 : Int) ≤ n)
    (hhigh : n < Word.bound64) : Reads depth (toString n).toList (.num (.int n)) := by
  refine reads_of_step fun fuel rest _ hrest => ?_
  obtain ⟨numeral, hread, hvalue⟩ := Json.readNumeral_int hlow hhigh hrest
  exact ⟨.number numeral, Json.readForm_number hread, by rw [Json.ofForm?, hvalue, Option.map_some]⟩

theorem reads_str (depth : Nat) (s : String) : Reads depth (quote s) (.str s) := by
  refine reads_of_step fun fuel rest _ _ => ?_
  obtain ⟨pieces, hread, htext⟩ := readPieces_quote s rest
  refine ⟨.string pieces, ?_, by rw [Json.ofForm?, htext, Option.map_some]⟩
  have hwritten : quote s ++ rest = '"' :: (s.toList.flatMap escapeChar ++ '"' :: rest) := by
    simp [quote]
  rw [hwritten, Json.readForm, Dump.skipBlank_cons (by decide)]
  simp only [hread, Option.map_some]

/-! ## Containers -/

section Containers

variable {depth level : Nat} {cs more : List Char} {j : Json}

/-- Behind a value that is not the last there is a comma. -/
theorem ends_comma (more : List Char) : Ends (',' :: more) := .inr ⟨',', by simp, more, rfl⟩

/-- Behind the last value the line ends. -/
theorem ends_line (more : List Char) : Ends ('\n' :: more) := .inr ⟨'\n', by simp, more, rfl⟩

theorem readsItems_last (h : Reads depth cs j) :
    ReadsItems depth ('\n' :: (indent level ++ cs)) [j] := by
  intro fuel ws rest hfuel hws
  simp only [List.length_cons, List.length_append] at hfuel
  obtain ⟨fuel, rfl⟩ := Nat.exists_eq_add_one.mpr (Nat.zero_lt_of_lt hfuel)
  obtain ⟨form, hread, hvalue⟩ :=
    h.behind fuel (blanks_line level) (by omega) (ends_line (ws ++ ']' :: rest))
  refine ⟨[form], ?_, by simp [Json.ofItems?, hvalue]⟩
  rw [← List.cons_append, List.append_assoc]
  exact Json.readItems_last (List.forall_mem_cons.mpr ⟨rfl, hws⟩) hread

theorem readsItems_more {js : List Json} (h : Reads depth cs j) (hmore : ReadsItems depth more js) :
    ReadsItems depth ('\n' :: (indent level ++ cs ++ ',' :: more)) (j :: js) := by
  intro fuel ws rest hfuel hws
  simp only [List.length_cons, List.length_append] at hfuel
  obtain ⟨fuel, rfl⟩ := Nat.exists_eq_add_one.mpr (Nat.zero_lt_of_lt hfuel)
  obtain ⟨forms, hrest, hvalues⟩ := hmore fuel ws rest (by omega) hws
  obtain ⟨form, hread, hvalue⟩ := h.behind fuel (blanks_line level) (by omega)
    (ends_comma (more ++ '\n' :: (ws ++ ']' :: rest)))
  refine ⟨form :: forms, ?_, by simp [Json.ofItems?, hvalue, hvalues]⟩
  have hitems := Json.readItems_more hread hrest
  simpa only [List.cons_append, List.append_assoc] using hitems

/-- A member is a key, a colon and a value behind a space, on a line of its own. -/
theorem readMembers_line (fuel : Nat) (key : String) (tail : List Char) :
    Json.readMembers fuel ('\n' :: (indent level ++ quote key ++ ':' :: ' ' :: cs) ++ tail) =
      Json.readMembers fuel ('"' :: (key.toList.flatMap escapeChar ++ '"' :: ':' ::
        ([' '] ++ (cs ++ tail)))) := by
  have hwritten : '\n' :: (indent level ++ quote key ++ ':' :: ' ' :: cs) ++ tail =
      ('\n' :: indent level) ++ ('"' :: (key.toList.flatMap escapeChar ++ '"' :: ':' ::
        ([' '] ++ (cs ++ tail)))) := by
    simp [quote]
  rw [hwritten, Json.readMembers_blanks (blanks_line level)]

theorem readsMembers_last (key : String) (h : Reads depth cs j) :
    ReadsMembers depth ('\n' :: (indent level ++ quote key ++ ':' :: ' ' :: cs)) [(key, j)] := by
  intro fuel ws rest hfuel hws
  simp only [List.length_cons, List.length_append] at hfuel
  obtain ⟨fuel, rfl⟩ := Nat.exists_eq_add_one.mpr (Nat.zero_lt_of_lt hfuel)
  obtain ⟨form, hread, hvalue⟩ :=
    h.behind fuel blanks_space (by omega) (ends_line (ws ++ '\x7d' :: rest))
  obtain ⟨pieces, hkey, htext⟩ := readPieces_quote key _
  refine ⟨[(pieces, form)], ?_, by simp [Json.ofMembers?, htext, hvalue]⟩
  rw [readMembers_line]
  exact Json.readMembers_last hkey (List.forall_mem_cons.mpr ⟨rfl, hws⟩) hread

theorem readsMembers_more (key : String) {members : List (String × Json)} (h : Reads depth cs j)
    (hmore : ReadsMembers depth more members) :
    ReadsMembers depth ('\n' :: (indent level ++ quote key ++ ':' :: ' ' :: cs ++ ',' :: more))
      ((key, j) :: members) := by
  intro fuel ws rest hfuel hws
  simp only [List.length_cons, List.length_append] at hfuel
  obtain ⟨fuel, rfl⟩ := Nat.exists_eq_add_one.mpr (Nat.zero_lt_of_lt hfuel)
  obtain ⟨forms, hrest, hvalues⟩ := hmore fuel ws rest (by omega) hws
  obtain ⟨form, hread, hvalue⟩ := h.behind fuel blanks_space (by omega)
    (ends_comma (more ++ '\n' :: (ws ++ '\x7d' :: rest)))
  obtain ⟨pieces, hkey, htext⟩ := readPieces_quote key _
  refine ⟨(pieces, form) :: forms, ?_, by simp [Json.ofMembers?, htext, hvalue, hvalues]⟩
  rw [← List.cons_append, List.append_assoc, readMembers_line]
  exact Json.readMembers_more hkey hread hrest

theorem reads_array {js : List Json} (h : ReadsItems depth cs js) :
    Reads (depth + 1) ('[' :: (cs ++ '\n' :: (indent level ++ [']']))) (.arr js) := by
  refine reads_of_step fun fuel rest hfuel _ => ?_
  simp only [List.length_cons, List.length_append] at hfuel
  obtain ⟨forms, hread, hvalues⟩ := h fuel (indent level) rest (by omega) (blanks_indent level)
  refine ⟨.array forms, ?_, by rw [Json.ofForm?, hvalues, Option.map_some]⟩
  have harray := Json.readForm_array hread
  simpa only [List.cons_append, List.append_assoc, List.nil_append] using harray

theorem reads_object {members : List (String × Json)} (h : ReadsMembers depth cs members) :
    Reads (depth + 1) ('\x7b' :: (cs ++ '\n' :: (indent level ++ ['\x7d'])))
      (.obj (SortedMap.ofList members)) := by
  refine reads_of_step fun fuel rest hfuel _ => ?_
  simp only [List.length_cons, List.length_append] at hfuel
  obtain ⟨forms, hread, hvalues⟩ := h fuel (indent level) rest (by omega) (blanks_indent level)
  refine ⟨.object forms, ?_, by rw [Json.ofForm?, hvalues, Option.map_some]⟩
  have hobject := Json.readForm_object hread
  simpa only [List.cons_append, List.append_assoc, List.nil_append] using hobject

theorem reads_emptyArray : Reads (depth + 1) ['[', ']'] (.arr []) :=
  reads_of_step fun _ _ _ _ => ⟨.array [], rfl, by simp [Json.ofForm?, Json.ofItems?]⟩

theorem reads_emptyObject : Reads (depth + 1) ['\x7b', '\x7d'] (.obj []) :=
  reads_of_step fun _ _ _ _ =>
    ⟨.object [], rfl, by simp [Json.ofForm?, Json.ofMembers?, SortedMap.ofList]⟩

end Containers

/-! ## Documents -/

/-- A document that comes back: its integers fit a word, with or without a sign, and its containers
nest no deeper than `depth`. -/
inductive Readable : Nat → Document → Prop where
  | null {depth : Nat} : Readable depth .null
  | bool {depth : Nat} (b : Bool) : Readable depth (.bool b)
  | int {depth : Nat} {n : Int} (hlow : -(Word.half64 : Int) ≤ n) (hhigh : n < Word.bound64) :
      Readable depth (.int n)
  | str {depth : Nat} (s : String) : Readable depth (.str s)
  | list {depth : Nat} {items : List Document} (h : ∀ d ∈ items, Readable depth d) :
      Readable (depth + 1) (.list items)
  | record {depth : Nat} {members : List (String × Document)}
      (h : ∀ m ∈ members, Readable depth m.2) : Readable (depth + 1) (.record members)

theorem readsItems_spreadItems {depth level : Nat} {items : List Document} (hne : items ≠ [])
    (h : ∀ d ∈ items, Reads depth (spread level d) d.toJson) :
    ReadsItems depth (spreadItems level items) (itemsToJson items) := by
  induction items with
  | nil => exact absurd rfl hne
  | cons item items ih =>
    obtain ⟨hitem, hitems⟩ := List.forall_mem_cons.mp h
    cases items with
    | nil => exact readsItems_last hitem
    | cons next items => exact readsItems_more hitem (ih (List.cons_ne_nil next items) hitems)

theorem readsMembers_spreadMembers {depth level : Nat} {members : List (String × Document)}
    (hne : members ≠ []) (h : ∀ m ∈ members, Reads depth (spread level m.2) m.2.toJson) :
    ReadsMembers depth (spreadMembers level members) (membersToJson members) := by
  induction members with
  | nil => exact absurd rfl hne
  | cons member members ih =>
    obtain ⟨hmember, hmembers⟩ := List.forall_mem_cons.mp h
    cases members with
    | nil => exact readsMembers_last member.1 hmember
    | cons next members =>
      exact readsMembers_more member.1 hmember (ih (List.cons_ne_nil next members) hmembers)

/-- A document is read back where it stands, at any level of indentation. -/
theorem Readable.reads {depth : Nat} {d : Document} (h : Readable depth d) (level : Nat) :
    Reads depth (spread level d) d.toJson := by
  induction h generalizing level with
  | null => exact reads_null _
  | bool b => exact reads_bool _ b
  | int hlow hhigh => exact reads_int _ hlow hhigh
  | str s => exact reads_str _ s
  -- Items stand one level further in, and a list without any has no lines at all.
  | @list depth items h ih =>
    cases items with
    | nil => exact reads_emptyArray
    | cons item items =>
      exact reads_array (readsItems_spreadItems (List.cons_ne_nil item items)
        fun d hd => ih d hd (level + 1))
  | @record depth members h ih =>
    cases members with
    | nil => exact reads_emptyObject
    | cons member members =>
      exact reads_object (readsMembers_spreadMembers (List.cons_ne_nil member members)
        fun m hm => ih m hm (level + 1))

/-- The page of a document is read back, and so is the page without its last line feed. -/
theorem Readable.ofText? {d : Document} (h : Readable Json.maxDepth d) :
    Json.ofText? d.page = some d.toJson ∧
      Json.ofText? (String.ofList (spread 0 d)) = some d.toJson := by
  refine ⟨(h.reads 0).ofText? (ends_line []) (blanks_line 0), ?_⟩
  have hread := (h.reads 0).ofText? (.inl rfl) (blanks_indent 0)
  rwa [List.append_nil] at hread

end Document
end SpecUpgrade
