import SpecUpgrade.Proofs.Derivation

/-!
Where the reader stops. It looks at most at one character behind what it takes, so a dump that is cut
off behind a child of its root and closed there is read up to that child as before. The offset of a
dump that cannot be read is the end of its readable part.
-/

namespace SpecUpgrade

namespace Dump

/-! ## The parts of a node -/

/-- What stands between the kind of a node and its end: the bounds and the children. -/
def readInner (fuel : Nat) (cs : List Char) :
    (Option Bounds × Option Bounds × List Term) × List Char :=
  let (range, rest) := readMarked '@' cs
  let (heredoc, rest) := readMarked '~' rest
  let (children, rest) := readChildren fuel rest
  ((range, heredoc, children), rest)

theorem readInner_eq_iff {fuel : Nat} {cs rest : List Char} {range heredoc : Option Bounds}
    {children : List Term} :
    readInner fuel cs = ((range, heredoc, children), rest) ↔
      ∃ cs₁ cs₂, readMarked '@' cs = (range, cs₁) ∧ readMarked '~' cs₁ = (heredoc, cs₂) ∧
        readChildren fuel cs₂ = (children, rest) := by
  constructor
  · intro h
    simp only [readInner, Prod.mk.injEq] at h
    obtain ⟨⟨hrange, hheredoc, hchildren⟩, hrest⟩ := h
    exact ⟨_, _, Prod.ext hrange rfl, Prod.ext hheredoc rfl, Prod.ext hchildren hrest⟩
  · rintro ⟨cs₁, cs₂, hrange, hheredoc, hchildren⟩
    simp only [readInner, hrange, hheredoc, hchildren]

/-- What the bounds and the children leave is the end of the text. -/
theorem exists_body {fuel : Nat} {cs rest : List Char}
    {read : Option Bounds × Option Bounds × List Term} (h : readInner fuel cs = (read, rest)) :
    ∃ body, cs = body ++ rest := by
  obtain ⟨range, heredoc, children⟩ := read
  obtain ⟨cs₁, cs₂, hrange, hheredoc, hchildren⟩ := readInner_eq_iff.mp h
  obtain ⟨front, rfl, -⟩ := readMarked_eq hrange
  obtain ⟨back, rfl, -⟩ := readMarked_eq hheredoc
  obtain ⟨inner, rfl, -⟩ := (sound fuel).children hchildren
  exact ⟨front ++ (back ++ inner), by simp⟩

def kindOf (cs : List Char) : List Char := (Json.skipBlank cs).takeWhile isKindChar

def behindKind (cs : List Char) : List Char := (Json.skipBlank cs).dropWhile isKindChar

/-- A node is its kind, what `readInner` takes, and a parenthesis. -/
theorem readNode_eq_ok_iff {fuel : Nat} {cs rest : List Char} {root : Head × List Term} :
    readNode (fuel + 1) cs = .ok (root, rest) ↔
      ∃ tail range heredoc children mid, cs = '(' :: tail ∧ kindOf tail ≠ [] ∧
        readInner fuel (behindKind tail) = ((range, heredoc, children), mid) ∧
        Json.skipBlank mid = ')' :: rest ∧
        root = (⟨String.ofList (kindOf tail), range, heredoc⟩, children) := by
  constructor
  · intro h
    unfold readNode at h
    split at h
    · rename_i tail
      simp only at h
      split at h
      · cases h
      · rename_i hkind
        split at h
        · rename_i rest' hclose
          obtain ⟨rfl, rfl⟩ := Prod.mk.inj (Except.ok.inj h)
          exact ⟨tail, _, _, _, _, rfl, by simpa [kindOf] using hkind, rfl, hclose, rfl⟩
        · cases h
    · cases h
  · rintro ⟨tail, range, heredoc, children, mid, rfl, hkind, hinner, hclose, rfl⟩
    obtain ⟨cs₁, cs₂, hrange, hheredoc, hchildren⟩ := readInner_eq_iff.mp hinner
    rw [kindOf, Ne, ← List.isEmpty_iff] at hkind
    rw [behindKind] at hrange
    rw [readNode]
    simp only [if_neg hkind, hrange, hheredoc, hchildren, hclose, kindOf]

/-- A node cannot be read on where its parenthesis, its kind or its end is missing. -/
theorem readNode_eq_error {fuel : Nat} {cs rest : List Char}
    (h : readNode (fuel + 1) cs = .error rest) :
    (rest = cs ∧ ∀ tail, cs ≠ '(' :: tail) ∨
      ∃ tail, cs = '(' :: tail ∧
        ((kindOf tail = [] ∧ rest = Json.skipBlank tail) ∨
          (kindOf tail ≠ [] ∧ ∃ read mid, readInner fuel (behindKind tail) = (read, mid) ∧
            rest = Json.skipBlank mid ∧ ∀ more, rest ≠ ')' :: more)) := by
  unfold readNode at h
  split at h
  · rename_i tail
    refine .inr ⟨tail, rfl, ?_⟩
    simp only at h
    split at h
    · rename_i hkind
      exact .inl ⟨by simpa [kindOf] using hkind, (Except.error.inj h).symm⟩
    · rename_i hkind
      split at h
      · cases h
      · rename_i hopen
        obtain rfl := Except.error.inj h
        exact .inr ⟨by simpa [kindOf] using hkind, _, _, rfl, rfl, hopen⟩
  · rename_i hopen
    exact .inl ⟨(Except.error.inj h).symm, hopen⟩

/-! ## Enough steps -/

theorem LooseLiteral.first {bare : List Char → Prop} {l : Literal} {cs : List Char}
    (h : LooseLiteral bare l cs) :
    ∃ c more, cs = c :: more ∧ Json.isBlank c = false ∧ c ∉ ['(', ')', '@', '~'] := by
  cases h with
  | written h => exact h.first
  | @real negative whole _ _ _ _ _ hne hwhole =>
    cases negative with
    | true => exact ⟨_, _, rfl, by decide, by decide⟩
    | false =>
      obtain ⟨c, more, rfl⟩ := List.exists_cons_of_ne_nil hne
      exact ⟨c, _, rfl, starts_of_isDigit (hwhole c (by simp))⟩
  | bare => exact ⟨_, _, rfl, by decide, by decide⟩

theorem readLiteral_first {cs rest : List Char} {l : Literal}
    (h : readLiteral cs = some (l, rest)) :
    ∃ c more, cs = c :: more ∧ c ∉ ['(', ')', '@', '~'] ∧ rest.length ≤ more.length := by
  obtain ⟨form, rfl, hform⟩ := readLiteral_eq_some h
  obtain ⟨c, more, rfl, -, hc⟩ := hform.first
  exact ⟨c, more ++ rest, rfl, hc, by simp⟩

theorem readNode_error_of_ne (fuel : Nat) {cs : List Char} (h : ∀ tail, cs ≠ '(' :: tail) :
    readNode fuel cs = .error cs := by
  cases fuel with
  | zero => rw [readNode]
  | succ fuel =>
    rw [readNode]
    exact h

/-- A term is a node or a literal, never both. -/
theorem readTerm_eq_some_iff {fuel : Nat} {cs rest : List Char} {term : Term} :
    readTerm (fuel + 1) cs = some (term, rest) ↔
      (∃ head children, readNode fuel cs = .ok ((head, children), rest) ∧
        term = .node head children) ∨
      ∃ l, readLiteral cs = some (l, rest) ∧ term = .literal l := by
  rw [readTerm]
  constructor
  · intro h
    split at h
    · rename_i hnode
      obtain ⟨rfl, rfl⟩ := Prod.mk.inj (Option.some.inj h)
      exact .inl ⟨_, _, hnode, rfl⟩
    · obtain ⟨⟨l, rest'⟩, hliteral, h⟩ := Option.map_eq_some_iff.mp h
      obtain ⟨rfl, rfl⟩ := Prod.mk.inj h
      exact .inr ⟨l, hliteral, rfl⟩
  · rintro (⟨head, children, hnode, rfl⟩ | ⟨l, hliteral, rfl⟩)
    · rw [hnode]
    · obtain ⟨c, more, rfl, hc, -⟩ := readLiteral_first hliteral
      have hopen : ∀ tail, c :: more ≠ '(' :: tail := by
        rintro tail ⟨⟩
        exact hc (by decide)
      rw [readNode_error_of_ne fuel hopen, hliteral]
      rfl

/-- What a term starts with is not what ends a node or marks its bounds, and something is taken. -/
theorem readTerm_first {fuel : Nat} {cs rest : List Char} {term : Term}
    (h : readTerm fuel cs = some (term, rest)) :
    ∃ c more, cs = c :: more ∧ c ∉ [')', '@', '~'] ∧ rest.length ≤ more.length := by
  cases fuel with
  | zero => cases h
  | succ fuel =>
    rcases readTerm_eq_some_iff.mp h with ⟨head, children, hnode, -⟩ | ⟨l, hliteral, -⟩
    · obtain ⟨front, inner, close, rfl, -⟩ := (sound fuel).node hnode
      refine ⟨'(', front ++ inner ++ close ++ [')'] ++ rest, rfl, by decide, ?_⟩
      rw [List.length_append]
      omega
    · obtain ⟨c, more, rfl, hc, hlength⟩ := readLiteral_first hliteral
      exact ⟨c, more, rfl, fun hmem => hc (List.mem_cons_of_mem _ hmem), hlength⟩

/-- The end of a node or a mark of its bounds shows up, or nothing at all. -/
def Childless (cs : List Char) : Prop :=
  ∀ c more, Json.skipBlank cs = c :: more → c ∈ [')', '@', '~']

theorem childless_of_shows {c : Char} {cs more : List Char} (hc : c ∈ [')', '@', '~'])
    (hshows : Json.skipBlank cs = c :: more) : Childless cs := by
  intro c' more' hshows'
  rw [hshows] at hshows'
  exact (List.cons.inj hshows').1 ▸ hc

theorem Childless.readChildren {cs : List Char} (h : Childless cs) (fuel : Nat) :
    readChildren fuel cs = ([], cs) := by
  cases fuel with
  | zero => rw [Dump.readChildren]
  | succ fuel =>
    rw [Dump.readChildren]
    cases hterm : readTerm fuel (Json.skipBlank cs) with
    | none => rfl
    | some read =>
      obtain ⟨c, more, hcons, hc, -⟩ := readTerm_first hterm
      exact absurd (h c more hcons) hc

theorem length_skipBlank_le (cs : List Char) : (Json.skipBlank cs).length ≤ cs.length :=
  (List.dropWhile_suffix _).length_le

theorem length_of_readMarked {mark : Char} {cs rest : List Char} {bounds : Option Bounds}
    (h : readMarked mark cs = (bounds, rest)) : rest.length ≤ cs.length := by
  obtain ⟨front, rfl, -⟩ := readMarked_eq h
  simp

theorem length_behindKind_le (cs : List Char) : (behindKind cs).length ≤ cs.length :=
  (List.dropWhile_suffix _).length_le.trans (length_skipBlank_le cs)

/-- Reading does not change with one more step, when there are three for every character. -/
structure Settled (fuel : Nat) : Prop where
  node : ∀ {cs : List Char}, 3 * cs.length + 1 ≤ fuel →
    readNode (fuel + 1) cs = readNode fuel cs
  term : ∀ {cs : List Char}, 3 * cs.length + 2 ≤ fuel →
    readTerm (fuel + 1) cs = readTerm fuel cs
  children : ∀ {cs : List Char}, 3 * cs.length + 3 ≤ fuel →
    readChildren (fuel + 1) cs = readChildren fuel cs

theorem Settled.readInner {fuel : Nat} (h : Settled fuel) {cs : List Char}
    (hfuel : 3 * cs.length + 3 ≤ fuel) : readInner (fuel + 1) cs = readInner fuel cs := by
  have hrange := length_of_readMarked (Prod.eta (readMarked '@' cs)).symm
  have hheredoc := length_of_readMarked (Prod.eta (readMarked '~' (readMarked '@' cs).2)).symm
  rw [Dump.readInner, Dump.readInner]
  simp only
  rw [h.children (by omega)]

theorem Settled.node_succ {fuel : Nat} (h : Settled fuel) {cs : List Char}
    (hfuel : 3 * cs.length + 1 ≤ fuel + 1) :
    readNode (fuel + 1 + 1) cs = readNode (fuel + 1) cs := by
  by_cases hopen : ∃ tail, cs = '(' :: tail
  · obtain ⟨tail, rfl⟩ := hopen
    have hlength := length_behindKind_le tail
    rw [List.length_cons] at hfuel
    have hbehind : 3 * (behindKind tail).length + 3 ≤ fuel := by omega
    have hinner := h.readInner hbehind
    simp only [Dump.readInner, behindKind, Prod.mk.injEq] at hinner
    simp only [readNode, hinner]
  · have hne : ∀ tail, cs ≠ '(' :: tail := fun tail hcs => hopen ⟨tail, hcs⟩
    rw [readNode, readNode]
    · exact hne
    · exact hne

theorem settled (fuel : Nat) : Settled fuel := by
  induction fuel with
  | zero => exact ⟨fun h => by omega, fun h => by omega, fun h => by omega⟩
  | succ fuel ih =>
    refine ⟨fun hfuel => ih.node_succ hfuel, fun hfuel => ?_, fun hfuel => ?_⟩
    · rw [readTerm, readTerm, ih.node (by omega)]
    · rename_i cs
      have hblank := length_skipBlank_le cs
      rw [readChildren, readChildren, ih.term (by omega)]
      cases hterm : readTerm fuel (Json.skipBlank cs) with
      | none => rfl
      | some read =>
        obtain ⟨c, more, hcons, -, hlength⟩ := readTerm_first hterm
        rw [hcons, List.length_cons] at hblank
        simp only
        rw [ih.children (by omega)]

theorem readNode_settled {fuel fuel' : Nat} {cs : List Char} (hfuel : 3 * cs.length + 1 ≤ fuel)
    (hle : fuel ≤ fuel') : readNode fuel' cs = readNode fuel cs := by
  induction fuel', hle using Nat.le_induction with
  | base => rfl
  | succ fuel' hle ih => rw [(settled fuel').node (by omega), ih]

theorem readTerm_settled {fuel fuel' : Nat} {cs : List Char} (hfuel : 3 * cs.length + 2 ≤ fuel)
    (hle : fuel ≤ fuel') : readTerm fuel' cs = readTerm fuel cs := by
  induction fuel', hle using Nat.le_induction with
  | base => rfl
  | succ fuel' hle ih => rw [(settled fuel').term (by omega), ih]

/-- What is read is read with one more step, too; children when the end of their node stands behind
them. -/
structure Lasting (fuel : Nat) : Prop where
  node : ∀ {cs rest : List Char} {root : Head × List Term}, readNode fuel cs = .ok (root, rest) →
    readNode (fuel + 1) cs = .ok (root, rest)
  term : ∀ {cs rest : List Char} {term : Term}, readTerm fuel cs = some (term, rest) →
    readTerm (fuel + 1) cs = some (term, rest)
  children : ∀ {cs rest more : List Char} {terms : List Term},
    readChildren fuel cs = (terms, rest) → Json.skipBlank rest = ')' :: more →
      readChildren (fuel + 1) cs = (terms, rest)

theorem Lasting.node_succ {fuel : Nat} (h : Lasting fuel) {cs rest : List Char}
    {root : Head × List Term} (hread : readNode (fuel + 1) cs = .ok (root, rest)) :
    readNode (fuel + 1 + 1) cs = .ok (root, rest) := by
  obtain ⟨tail, range, heredoc, children, mid, rfl, hkind, hinner, hclose, rfl⟩ :=
    readNode_eq_ok_iff.mp hread
  obtain ⟨cs₁, cs₂, hrange, hheredoc, hchildren⟩ := readInner_eq_iff.mp hinner
  exact readNode_eq_ok_iff.mpr ⟨tail, range, heredoc, children, mid, rfl, hkind,
    readInner_eq_iff.mpr ⟨cs₁, cs₂, hrange, hheredoc, h.children hchildren hclose⟩, hclose, rfl⟩

theorem Lasting.children_succ {fuel : Nat} (h : Lasting fuel) {cs rest more : List Char}
    {terms : List Term} (hread : readChildren (fuel + 1) cs = (terms, rest))
    (hclose : Json.skipBlank rest = ')' :: more) :
    readChildren (fuel + 1 + 1) cs = (terms, rest) := by
  rw [readChildren] at hread
  split at hread
  · obtain ⟨rfl, rfl⟩ := Prod.mk.inj hread
    exact (childless_of_shows (by simp) hclose).readChildren _
  · rename_i term mid hterm
    obtain ⟨rfl, rfl⟩ := Prod.mk.inj hread
    rw [readChildren, h.term hterm]
    simp only
    rw [h.children (Prod.eta _).symm hclose]

theorem lasting (fuel : Nat) : Lasting fuel := by
  induction fuel with
  | zero =>
    refine ⟨nofun, nofun, fun hread hclose => ?_⟩
    obtain ⟨rfl, rfl⟩ := Prod.mk.inj hread
    exact (childless_of_shows (by simp) hclose).readChildren _
  | succ fuel ih =>
    refine ⟨ih.node_succ, fun hread => ?_, ih.children_succ⟩
    rcases readTerm_eq_some_iff.mp hread with ⟨head, children, hnode, rfl⟩ | hliteral
    · exact readTerm_eq_some_iff.mpr (.inl ⟨head, children, ih.node hnode, rfl⟩)
    · exact readTerm_eq_some_iff.mpr (.inr hliteral)

/-- Where enough steps read no term, no number of steps reads one. -/
theorem readTerm_eq_none {fuel : Nat} {cs : List Char} (hfuel : 3 * cs.length + 2 ≤ fuel)
    (h : readTerm fuel cs = none) (fuel' : Nat) : readTerm fuel' cs = none := by
  rcases Nat.le_total fuel fuel' with hle | hle
  · rw [readTerm_settled hfuel hle, h]
  · rw [Option.eq_none_iff_forall_ne_some]
    rintro ⟨term, rest⟩ hterm
    have hread : readTerm fuel cs = some (term, rest) := by
      clear h hfuel
      induction fuel, hle using Nat.le_induction with
      | base => exact hterm
      | succ fuel hle ih => exact (lasting fuel).term ih
    rw [hread] at h
    cases h

/-- A node that is read with any number of steps is read with enough of them. -/
theorem readNode_eq_ok {fuel fuel' : Nat} {cs : List Char} {read : (Head × List Term) × List Char}
    (h : readNode fuel cs = .ok read) (hfuel : 3 * cs.length + 1 ≤ fuel') :
    readNode fuel' cs = .ok read := by
  rcases Nat.le_total fuel fuel' with hle | hle
  · clear hfuel
    induction fuel', hle using Nat.le_induction with
    | base => exact h
    | succ fuel' hle ih => exact (lasting fuel').node ih
  · rw [← readNode_settled hfuel hle, h]

/-- The children end where no child can be read. -/
theorem readTerm_behind_children {fuel : Nat} {cs rest : List Char} {terms : List Term}
    (h : readChildren fuel cs = (terms, rest)) (hfuel : 3 * cs.length + 3 ≤ fuel) (fuel' : Nat) :
    readTerm fuel' (Json.skipBlank rest) = none := by
  induction fuel generalizing cs terms with
  | zero => omega
  | succ fuel ih =>
    have hblank := length_skipBlank_le cs
    rw [readChildren] at h
    split at h
    · rename_i hterm
      obtain ⟨rfl, rfl⟩ := Prod.mk.inj h
      exact readTerm_eq_none (by omega) hterm fuel'
    · rename_i term mid hterm
      obtain ⟨rfl, hrest⟩ := Prod.mk.inj h
      obtain ⟨c, more, hcons, -, hlength⟩ := readTerm_first hterm
      rw [hcons, List.length_cons] at hblank
      exact ih (Prod.ext rfl hrest) (by omega)

/-! ## Texts that are cut off -/

/-- What may stand where a dump is cut off: nothing, or the parenthesis that closes its root. -/
def Ending (stop : List Char) : Prop := stop = [] ∨ stop = [')']

section Cut

variable {cs rest tail stop : List Char}

theorem run_cut (hstop : Ending stop) {p : Char → Bool} (hp : p ')' = false)
    (h : (cs ++ tail).dropWhile p = rest ++ tail) :
    (cs ++ stop).takeWhile p = (cs ++ tail).takeWhile p ∧
      (cs ++ stop).dropWhile p = rest ++ stop := by
  induction cs with
  | nil =>
    rw [List.nil_append] at h
    have hlength := (List.dropWhile_suffix (l := tail) p).length_le
    rw [h, List.length_append] at hlength
    obtain rfl : rest = [] := List.eq_nil_of_length_eq_zero (by omega)
    have htake : tail.takeWhile p = [] := by
      have hsplit := List.takeWhile_append_dropWhile (p := p) (l := tail)
      rw [h, List.nil_append] at hsplit
      exact List.append_left_eq_self.mp hsplit
    rcases hstop with rfl | rfl <;> simp [htake, hp]
  | cons c cs ih =>
    by_cases hc : p c = true
    · simp only [List.cons_append, List.takeWhile_cons_of_pos hc,
        List.dropWhile_cons_of_pos hc] at h ⊢
      obtain ⟨htake, hdrop⟩ := ih h
      exact ⟨by rw [htake], hdrop⟩
    · rw [List.cons_append, List.dropWhile_cons_of_neg hc, ← List.cons_append] at h
      obtain rfl := List.append_cancel_right h
      simp [List.takeWhile_cons_of_neg hc, List.dropWhile_cons_of_neg hc]

theorem skipBlank_cut (hstop : Ending stop) (h : Json.skipBlank (cs ++ tail) = rest ++ tail) :
    Json.skipBlank (cs ++ stop) = rest ++ stop :=
  (run_cut hstop (by decide) h).2

/-! ### Bounds -/

theorem readNat_cut (hstop : Ending stop) {n : Nat}
    (h : readNat (cs ++ tail) = some (n, rest ++ tail)) :
    readNat (cs ++ stop) = some (n, rest ++ stop) := by
  have hdrop : (cs ++ tail).dropWhile Char.isDigit = rest ++ tail := by
    simp only [readNat, Option.ite_none_left_eq_some, Option.some.injEq, Prod.mk.injEq] at h
    exact h.2.2
  obtain ⟨htake, hdrop'⟩ := run_cut hstop (by decide) hdrop
  simp only [readNat, htake, hdrop, hdrop'] at h ⊢
  split at h
  · cases h
  · rename_i hfits
    rw [if_neg hfits]
    simp_all

theorem readBounds_cut (hstop : Ending stop) {bounds : Bounds}
    (h : readBounds (cs ++ tail) = some (bounds, rest ++ tail)) :
    readBounds (cs ++ stop) = some (bounds, rest ++ stop) := by
  unfold readBounds at h
  obtain ⟨⟨start, mid⟩, hstart, hmid⟩ := Option.bind_eq_some_iff.mp h
  simp only at hmid
  split at hmid
  · rename_i text
    obtain ⟨⟨stop', rest'⟩, hback, hend⟩ := Option.bind_eq_some_iff.mp hmid
    obtain ⟨rfl, rfl⟩ : (start, stop') = bounds ∧ rest' = rest ++ tail := by simpa using hend
    obtain ⟨back, rfl, -⟩ := readNat_eq_some hback
    rw [← List.append_assoc] at hback
    rw [← List.append_assoc, ← List.cons_append, ← List.cons_append] at hstart
    simp only [readBounds, readNat_cut hstop hstart, readNat_cut hstop hback, List.cons_append,
      Option.bind_eq_bind, Option.bind_some, Option.pure_def]
  · cases hmid

theorem readMarked_eq_some {mark : Char} {bounds : Bounds}
    (h : readMarked mark cs = (some bounds, rest)) :
    ∃ text, Json.skipBlank cs = mark :: text ∧ readBounds text = some (bounds, rest) := by
  unfold readMarked at h
  split at h
  · rename_i c text hskip
    split at h
    · rename_i hc
      split at h
      · rename_i bounds' rest' hbounds
        obtain ⟨⟨rfl⟩, rfl⟩ := Prod.mk.inj h
        exact ⟨text, by rw [hskip, hc], hbounds⟩
      · cases h
    · cases h
  · cases h

theorem readMarked_eq_none {mark : Char} (h : readMarked mark cs = (none, rest)) : rest = cs := by
  obtain ⟨front, hcs, hmarked⟩ := readMarked_eq h
  cases hmarked
  exact hcs.symm

theorem readMarked_of_not_shows {mark : Char} (h : ∀ text, Json.skipBlank cs ≠ mark :: text) :
    readMarked mark cs = (none, cs) := by
  cases hskip : Json.skipBlank cs with
  | nil => rw [readMarked, hskip]
  | cons c text =>
    refine readMarked_missing hskip ?_
    rintro rfl
    exact h text hskip

/-- Bounds that are read stay the same. Where none are read because no mark shows up, none shows up
when the text is cut off; numbers that cannot be read could become readable. -/
theorem readMarked_cut (hstop : Ending stop) {mark : Char} (hmark : mark ≠ ')')
    {bounds : Option Bounds} (h : readMarked mark (cs ++ tail) = (bounds, rest ++ tail))
    (hnone : bounds = none → ∀ text, Json.skipBlank cs ≠ mark :: text) :
    readMarked mark (cs ++ stop) = (bounds, rest ++ stop) := by
  cases bounds with
  | none =>
    obtain rfl := List.append_cancel_right (readMarked_eq_none h)
    refine readMarked_of_not_shows fun text hshows => ?_
    rw [Json.skipBlank, List.dropWhile_append] at hshows
    split at hshows
    · rcases hstop with rfl | rfl
      · cases hshows
      · rw [List.dropWhile_cons_of_neg (by decide)] at hshows
        exact hmark (List.cons.inj hshows).1.symm
    · rename_i hne
      obtain ⟨c, more, hcons⟩ := List.exists_cons_of_ne_nil (mt List.isEmpty_iff.mpr hne)
      rw [hcons, List.cons_append] at hshows
      exact hnone rfl more (by rw [Json.skipBlank, hcons, (List.cons.inj hshows).1])
  | some bounds =>
    obtain ⟨text, hskip, hbounds⟩ := readMarked_eq_some h
    obtain ⟨start, stop'⟩ := bounds
    obtain ⟨front, back, rfl, -⟩ := readBounds_eq_some hbounds
    rw [← List.append_assoc] at hskip hbounds
    rw [← List.cons_append] at hskip
    have hskip' := skipBlank_cut hstop hskip
    rw [readMarked, hskip']
    simp only [List.cons_append, if_pos, readBounds_cut hstop hbounds]

/-! ### Literals -/

theorem readString_cut {text : String} (h : readString (cs ++ tail) = some (text, rest ++ tail)) :
    readString (cs ++ stop) = some (text, rest ++ stop) := by
  obtain ⟨written, hcs, hwritten⟩ := readString_eq_some h
  rw [← List.append_assoc] at hcs
  rw [List.append_cancel_right hcs, List.append_assoc]
  exact readString_quote hwritten _

/-- A literal does not end where a text is cut off, for there is no quote. -/
theorem readString_of_cut (hstop : Ending stop) {text : String}
    (h : readString (cs ++ stop) = some (text, rest)) :
    ∃ rest', readString (cs ++ tail) = some (text, rest') := by
  obtain ⟨written, hcs, hwritten⟩ := readString_eq_some h
  suffices hprefix : ∃ more, cs = quote written ++ more by
    obtain ⟨more, rfl⟩ := hprefix
    rw [List.append_assoc]
    exact ⟨_, readString_quote hwritten _⟩
  rcases hstop with rfl | rfl
  · exact ⟨rest, by simpa using hcs⟩
  · rcases List.eq_nil_or_concat rest with rfl | ⟨more, c, rfl⟩
    · rw [quote, List.append_nil, ← List.cons_append] at hcs
      exact absurd (List.append_inj_right' hcs rfl) (by decide)
    · rw [List.concat_eq_append, ← List.append_assoc] at hcs
      exact ⟨more, List.append_inj_left' hcs rfl⟩

theorem readSymbol_cut (hstop : Ending stop) {name : String}
    (h : readSymbol (cs ++ tail) = some (name, rest ++ tail)) :
    readSymbol (cs ++ stop) = some (name, rest ++ stop) := by
  unfold readSymbol at h
  split at h
  · rename_i read hstring
    obtain rfl := Option.some.inj h
    rw [readSymbol, readString_cut hstring]
  · rename_i hstring
    have hstring' : readString (cs ++ stop) = none := by
      rw [Option.eq_none_iff_forall_ne_some]
      rintro ⟨text, rest'⟩ hread
      obtain ⟨rest'', hread'⟩ := readString_of_cut hstop hread
      rw [hread'] at hstring
      cases hstring
    simp only [Option.ite_none_left_eq_some, Option.some.injEq, Prod.mk.injEq] at h
    obtain ⟨hne, rfl, hdrop⟩ := h
    obtain ⟨htake, hdrop'⟩ := run_cut hstop (by decide) hdrop
    rw [readSymbol, hstring']
    simp only [htake, if_neg hne, hdrop']

theorem readNumber_eq_some_iff {negative : Bool} {l : Literal} :
    readNumber negative cs = some (l, rest) ↔
      ∃ c more, cs = c :: more ∧ c.isDigit = true ∧
        number? negative (cs.takeWhile isNumberChar) = some l ∧
        cs.dropWhile isNumberChar = rest := by
  constructor
  · intro h
    unfold readNumber at h
    split at h
    · rename_i c more
      split at h
      · rename_i hc
        obtain ⟨l', hnumber, h⟩ := Option.map_eq_some_iff.mp h
        obtain ⟨rfl, hdrop⟩ := Prod.mk.inj h
        exact ⟨c, more, rfl, hc, hnumber, hdrop⟩
      · cases h
    · cases h
  · rintro ⟨c, more, rfl, hc, hnumber, rfl⟩
    rw [readNumber, if_pos hc, hnumber]
    rfl

theorem readNumber_cut (hstop : Ending stop) {negative : Bool} {l : Literal}
    (h : readNumber negative (cs ++ tail) = some (l, rest ++ tail)) :
    readNumber negative (cs ++ stop) = some (l, rest ++ stop) := by
  obtain ⟨c, more, hcons, hc, hnumber, hdrop⟩ := readNumber_eq_some_iff.mp h
  obtain ⟨htake, hdrop'⟩ := run_cut hstop (by decide) hdrop
  rw [← htake] at hnumber
  cases cs with
  | nil =>
    -- the first digit is taken, so it stands before the cut
    have hlength := (List.dropWhile_suffix (l := more) isNumberChar).length_le
    rw [List.nil_append] at hcons hdrop
    rw [hcons, List.dropWhile_cons_of_pos (by simp [isNumberChar, hc])] at hdrop
    rw [hdrop, List.length_append, List.length_cons] at hlength
    omega
  | cons d cs =>
    obtain rfl : d = c := (List.cons.inj hcons).1
    exact readNumber_eq_some_iff.mpr ⟨d, cs ++ stop, rfl, hc, hnumber, hdrop'⟩

theorem readWord_cut (hstop : Ending stop) {l : Literal}
    (h : readWord (cs ++ tail) = some (l, rest ++ tail)) :
    readWord (cs ++ stop) = some (l, rest ++ stop) := by
  have hdrop : (cs ++ tail).dropWhile Char.isAlpha = rest ++ tail := by
    unfold readWord at h
    split at h <;> simp_all
  obtain ⟨htake, hdrop'⟩ := run_cut hstop (by decide) hdrop
  have hword : readWord (cs ++ stop) =
      (readWord (cs ++ tail)).map fun read => (read.1, rest ++ stop) := by
    rw [readWord, htake, hdrop', readWord]
    split <;> rfl
  rw [hword, h]
  rfl

theorem readLiteral_other {c : Char} (hcolon : c ≠ ':') (hquote : c ≠ '"') (hsign : c ≠ '-') :
    readLiteral (c :: cs) = if c.isDigit then readNumber false (c :: cs) else readWord (c :: cs) := by
  rw [readLiteral]
  · exact hcolon
  · exact hquote
  · exact hsign

theorem readLiteral_cut (hstop : Ending stop) {l : Literal}
    (h : readLiteral (cs ++ tail) = some (l, rest ++ tail)) :
    readLiteral (cs ++ stop) = some (l, rest ++ stop) := by
  obtain ⟨c, more, hcons, -, hlength⟩ := readLiteral_first h
  cases cs with
  | nil =>
    have hlength' := congrArg List.length hcons
    simp only [List.nil_append, List.length_cons, List.length_append] at hlength hlength'
    omega
  | cons d cs =>
    rw [List.cons_append] at h ⊢
    by_cases hcolon : d = ':'
    · subst hcolon
      obtain ⟨⟨name, rest'⟩, hsymbol, h⟩ := Option.map_eq_some_iff.mp h
      obtain ⟨rfl, rfl⟩ := Prod.mk.inj h
      rw [readLiteral, readSymbol_cut hstop hsymbol]
      rfl
    by_cases hquote : d = '"'
    · subst hquote
      obtain ⟨⟨text, rest'⟩, hstring, h⟩ := Option.map_eq_some_iff.mp h
      obtain ⟨rfl, rfl⟩ := Prod.mk.inj h
      rw [readLiteral, ← List.cons_append, readString_cut hstring]
      rfl
    by_cases hsign : d = '-'
    · subst hsign
      exact readNumber_cut hstop h
    rw [readLiteral_other hcolon hquote hsign, ← List.cons_append] at h ⊢
    by_cases hd : d.isDigit = true
    · rw [if_pos hd] at h ⊢
      exact readNumber_cut hstop h
    · rw [if_neg hd] at h ⊢
      exact readWord_cut hstop h

/-! ### Nodes -/

/-- At the end of a text no child shows up: blanks, or blanks and a closing parenthesis. -/
def Halts (rest : List Char) : Prop := ∀ c more, Json.skipBlank rest = c :: more → c = ')'

/-- With so many steps a text that is cut off behind what was taken is read the same. -/
structure Cuts (fuel : Nat) : Prop where
  node : ∀ {cs rest tail stop : List Char} {root : Head × List Term}, Ending stop →
    readNode fuel (cs ++ tail) = .ok (root, rest ++ tail) →
      readNode fuel (cs ++ stop) = .ok (root, rest ++ stop)
  term : ∀ {cs rest tail stop : List Char} {term : Term}, Ending stop →
    readTerm fuel (cs ++ tail) = some (term, rest ++ tail) →
      readTerm fuel (cs ++ stop) = some (term, rest ++ stop)
  children : ∀ {cs rest tail stop : List Char} {terms : List Term}, Ending stop → Halts rest →
    readChildren fuel (cs ++ tail) = (terms, rest ++ tail) →
      readChildren fuel (cs ++ stop) = (terms, rest ++ stop)

theorem skipBlank_append_of_shows {c : Char} {more : List Char}
    (h : Json.skipBlank cs = c :: more) (tail : List Char) :
    Json.skipBlank (cs ++ tail) = c :: (more ++ tail) := by
  rw [Json.skipBlank] at h ⊢
  rw [List.dropWhile_append, h]
  rfl

theorem Halts.childless (h : Halts cs) (hstop : Ending stop) : Childless (cs ++ stop) := by
  cases hskip : Json.skipBlank cs with
  | nil =>
    have hblanks : Blanks cs := List.dropWhile_eq_nil_iff.mp hskip
    intro c more hshows
    rw [skipBlank_append hblanks] at hshows
    rcases hstop with rfl | rfl
    · cases hshows
    · rw [skipBlank_cons (by decide)] at hshows
      simp [(List.cons.inj hshows).1.symm]
  | cons c more =>
    obtain rfl := h c more hskip
    exact childless_of_shows (by simp) (skipBlank_append_of_shows hskip stop)

/-- A mark that shows up where bounds cannot be read ends the reading of children at once. -/
theorem Halts.not_shows {mark : Char} (hrest : Halts rest) (hmark : mark ∈ ['@', '~'])
    {fuel : Nat} {terms : List Term}
    (h : readChildren fuel (cs ++ tail) = (terms, rest ++ tail)) (text : List Char) :
    Json.skipBlank cs ≠ mark :: text := by
  intro hshows
  have hchildless := childless_of_shows (List.mem_cons_of_mem ')' hmark)
    (skipBlank_append_of_shows hshows tail)
  rw [hchildless.readChildren] at h
  obtain rfl := List.append_cancel_right (Prod.mk.inj h).2
  obtain rfl := hrest mark text hshows
  exact absurd hmark (by decide)

theorem Cuts.readInner {fuel : Nat} (h : Cuts fuel) (hstop : Ending stop) (hrest : Halts rest)
    {read : Option Bounds × Option Bounds × List Term}
    (hread : readInner fuel (cs ++ tail) = (read, rest ++ tail)) :
    readInner fuel (cs ++ stop) = (read, rest ++ stop) := by
  obtain ⟨range, heredoc, children⟩ := read
  obtain ⟨cs₁, cs₂, hrange, hheredoc, hchildren⟩ := readInner_eq_iff.mp hread
  obtain ⟨rest₂, rfl⟩ : ∃ rest₂, cs₂ = rest₂ ++ tail := by
    obtain ⟨inner, rfl, -⟩ := (sound fuel).children hchildren
    exact ⟨inner ++ rest, by simp⟩
  obtain ⟨rest₁, rfl⟩ : ∃ rest₁, cs₁ = rest₁ ++ tail := by
    obtain ⟨back, rfl, -⟩ := readMarked_eq hheredoc
    exact ⟨back ++ rest₂, by simp⟩
  refine readInner_eq_iff.mpr ⟨_, _, readMarked_cut hstop (by decide) hrange ?_,
    readMarked_cut hstop (by decide) hheredoc ?_, h.children hstop hrest hchildren⟩
  · rintro rfl text hshows
    obtain rfl := List.append_cancel_right (readMarked_eq_none hrange)
    rw [readMarked_missing (skipBlank_append_of_shows hshows tail) (by decide)] at hheredoc
    obtain rfl := List.append_cancel_right (Prod.mk.inj hheredoc).2
    exact hrest.not_shows (by simp) hchildren text hshows
  · rintro rfl text hshows
    obtain rfl := List.append_cancel_right (readMarked_eq_none hheredoc)
    exact hrest.not_shows (by simp) hchildren text hshows

/-- The kind of a node is the same when the text is cut off behind it. -/
theorem kind_cut (hstop : Ending stop) (h : behindKind (cs ++ tail) = rest ++ tail) :
    kindOf (cs ++ stop) = kindOf (cs ++ tail) ∧ behindKind (cs ++ stop) = rest ++ stop := by
  have hsplit : Json.skipBlank (cs ++ tail) = kindOf (cs ++ tail) ++ rest ++ tail := by
    rw [List.append_assoc, ← h]
    exact List.takeWhile_append_dropWhile.symm
  have hskip := skipBlank_cut hstop hsplit
  rw [behindKind, hsplit] at h
  obtain ⟨htake, hdrop⟩ := run_cut hstop (by decide) h
  rw [← hskip] at htake hdrop
  rw [← hsplit] at htake
  exact ⟨htake, hdrop⟩

theorem Cuts.opened {fuel : Nat} (h : Cuts fuel) (hstop : Ending stop) (hrest : Halts rest)
    {read : Option Bounds × Option Bounds × List Term}
    (hread : Dump.readInner fuel (behindKind (cs ++ tail)) = (read, rest ++ tail)) :
    kindOf (cs ++ stop) = kindOf (cs ++ tail) ∧
      Dump.readInner fuel (behindKind (cs ++ stop)) = (read, rest ++ stop) := by
  obtain ⟨body, hbody⟩ := exists_body hread
  rw [← List.append_assoc] at hbody
  obtain ⟨hkind, hbehind⟩ := kind_cut hstop hbody
  rw [hbody] at hread
  rw [hbehind]
  exact ⟨hkind, h.readInner hstop hrest hread⟩

theorem Cuts.node_succ {fuel : Nat} (h : Cuts fuel) (hstop : Ending stop)
    {root : Head × List Term} (hread : readNode (fuel + 1) (cs ++ tail) = .ok (root, rest ++ tail)) :
    readNode (fuel + 1) (cs ++ stop) = .ok (root, rest ++ stop) := by
  obtain ⟨text, range, heredoc, children, mid, hopen, hkind, hinner, hclose, rfl⟩ :=
    readNode_eq_ok_iff.mp hread
  obtain ⟨cs, rfl⟩ : ∃ cs', cs = '(' :: cs' := by
    obtain ⟨front, inner, close, hcs, -⟩ := (sound _).node hread
    rw [← List.append_assoc] at hcs
    exact ⟨_, List.append_cancel_right hcs⟩
  obtain rfl : text = cs ++ tail := (List.cons.inj hopen).2.symm
  obtain ⟨blanks, hblanks, hmid⟩ := skipBlank_split mid
  obtain ⟨rest', hrest', rfl⟩ : ∃ rest', Json.skipBlank rest' = ')' :: rest ∧
      mid = rest' ++ tail := by
    refine ⟨blanks ++ ')' :: rest, ?_, by rw [hmid, hclose]; simp⟩
    rw [skipBlank_append hblanks, skipBlank_cons (by decide)]
  have hhalts : Halts rest' := fun c more hshows =>
    (List.cons.inj (hshows.symm.trans hrest')).1
  obtain ⟨hkind', hinner'⟩ := h.opened hstop hhalts hinner
  rw [← hkind'] at hkind ⊢
  exact readNode_eq_ok_iff.mpr ⟨cs ++ stop, range, heredoc, children, rest' ++ stop, rfl, hkind,
    hinner', skipBlank_append_of_shows hrest' stop, rfl⟩

theorem Cuts.term_succ {fuel : Nat} (h : Cuts fuel) (hstop : Ending stop)
    {term : Term} (hread : readTerm (fuel + 1) (cs ++ tail) = some (term, rest ++ tail)) :
    readTerm (fuel + 1) (cs ++ stop) = some (term, rest ++ stop) := by
  rcases readTerm_eq_some_iff.mp hread with ⟨head, children, hnode, rfl⟩ | ⟨l, hliteral, rfl⟩
  · exact readTerm_eq_some_iff.mpr (.inl ⟨head, children, h.node hstop hnode, rfl⟩)
  · exact readTerm_eq_some_iff.mpr (.inr ⟨l, readLiteral_cut hstop hliteral, rfl⟩)

theorem Cuts.children_succ {fuel : Nat} (h : Cuts fuel) (hstop : Ending stop) (hrest : Halts rest)
    {terms : List Term} (hread : readChildren (fuel + 1) (cs ++ tail) = (terms, rest ++ tail)) :
    readChildren (fuel + 1) (cs ++ stop) = (terms, rest ++ stop) := by
  rw [readChildren] at hread
  split at hread
  · obtain ⟨rfl, hcs⟩ := Prod.mk.inj hread
    obtain rfl := List.append_cancel_right hcs
    exact (hrest.childless hstop).readChildren _
  · rename_i term mid hterm
    obtain ⟨rfl, hmid⟩ := Prod.mk.inj hread
    have hothers : readChildren fuel mid = ((readChildren fuel mid).1, rest ++ tail) :=
      Prod.ext rfl hmid
    obtain ⟨inner, hinner, -⟩ := (sound fuel).children hothers
    rw [← List.append_assoc] at hinner
    generalize inner ++ rest = mid' at hinner
    subst hinner
    obtain ⟨form, hform, -⟩ := (sound fuel).term hterm
    rw [← List.append_assoc] at hform
    rw [hform] at hterm
    rw [readChildren, skipBlank_cut hstop hform, h.term hstop hterm]
    simp only [h.children hstop hrest hothers]

theorem cuts (fuel : Nat) : Cuts fuel := by
  induction fuel with
  | zero =>
    refine ⟨nofun, nofun, fun hstop hrest hread => ?_⟩
    obtain ⟨rfl, hcs⟩ := Prod.mk.inj hread
    obtain rfl := List.append_cancel_right hcs
    exact (hrest.childless hstop).readChildren _
  | succ fuel ih =>
    exact ⟨fun hstop hread => ih.node_succ hstop hread, fun hstop hread => ih.term_succ hstop hread,
      fun hstop hrest hread => ih.children_succ hstop hrest hread⟩

end Cut

/-! ## The end of the readable part -/

/-- Why a dump is readable up to a place and no further: the root or its kind does not start there,
no child of the root and no end of it stands there, or more than blanks stand behind the root. -/
inductive StopsAt : List Char → List Char → Prop where
  | opening {before bad : List Char} (hbefore : Blanks before)
      (hbad : ∀ c more, bad = c :: more → Json.isBlank c = false ∧ c ≠ '(') :
      StopsAt before bad
  | kind {before inner bad : List Char} (hbefore : Blanks before) (hinner : Blanks inner)
      (hbad : ∀ c more, bad = c :: more → Json.isBlank c = false ∧ isKindChar c = false) :
      StopsAt (before ++ '(' :: inner) bad
  | child {good bad : List Char} {root : Head × List Term}
      (hgood : Dump.read (String.ofList (good ++ [')'])) = .ok root)
      (hbad : ∀ c more, bad = c :: more → Json.isBlank c = false ∧ c ≠ ')')
      (hterm : ∀ fuel, readTerm fuel bad = none) : StopsAt good bad
  | behind {good more : List Char} {c : Char} {root : Head × List Term}
      (hgood : Dump.read (String.ofList good) = .ok root) (hc : Json.isBlank c = false) :
      StopsAt good (c :: more)

theorem isBlank_of_skipBlank {cs more : List Char} {c : Char}
    (h : Json.skipBlank cs = c :: more) : Json.isBlank c = false := by
  have hhead := List.head?_dropWhile_not Json.isBlank cs
  rw [Json.skipBlank] at h
  simpa [h] using hhead

/-- A text is read as a dump when a node is read from it, however many steps that takes. -/
theorem read_of_readNode {before cs rest : List Char} {root : Head × List Term} {fuel : Nat}
    (hbefore : Blanks before) (h : readNode fuel cs = .ok (root, rest))
    (hrest : Json.skipBlank rest = []) :
    Dump.read (String.ofList (before ++ cs)) = .ok root := by
  obtain ⟨front, inner, close, hcs, -⟩ := (sound fuel).node h
  have hskip : Json.skipBlank (before ++ cs) = cs := by
    rw [skipBlank_append hbefore, hcs, parenthesize, List.cons_append,
      skipBlank_cons (by decide)]
  have hnode : readNode (3 * (before ++ cs).length + 3) cs = .ok (root, rest) :=
    readNode_eq_ok h (by rw [List.length_append]; omega)
  simp only [Dump.read, String.toList_ofList, hskip, hnode, hrest]

/-- No child can be read behind the children of a node, and no bounds before them change that. -/
theorem readTerm_behind_inner {fuel : Nat} {text mid : List Char}
    {read : Option Bounds × Option Bounds × List Term}
    (h : readInner fuel (behindKind text) = (read, mid)) (hfuel : 3 * text.length + 3 ≤ fuel)
    (fuel' : Nat) : readTerm fuel' (Json.skipBlank mid) = none := by
  obtain ⟨range, heredoc, children⟩ := read
  obtain ⟨cs₁, cs₂, hrange, hheredoc, hchildren⟩ := readInner_eq_iff.mp h
  have hkind := length_behindKind_le text
  have hrange := length_of_readMarked hrange
  have hheredoc := length_of_readMarked hheredoc
  exact readTerm_behind_children hchildren (by omega) fuel'

/-- A node that is cut off behind its children and closed there is read. -/
theorem exists_closed {fuel : Nat} {before text mid : List Char}
    {read : Option Bounds × Option Bounds × List Term} (hbefore : Blanks before)
    (hkind : kindOf text ≠ []) (h : readInner fuel (behindKind text) = (read, mid)) :
    ∃ good, before ++ '(' :: text = good ++ Json.skipBlank mid ∧
      ∃ root, Dump.read (String.ofList (good ++ [')'])) = .ok root := by
  obtain ⟨close, hclose, hmid⟩ := skipBlank_split mid
  generalize Json.skipBlank mid = bad at hmid
  subst hmid
  obtain ⟨body, hbody⟩ := exists_body h
  obtain ⟨front, hfront⟩ : behindKind text <:+ text :=
    (List.dropWhile_suffix _).trans (List.dropWhile_suffix _)
  obtain ⟨inside, rfl⟩ : ∃ inside, text = inside ++ bad :=
    ⟨front ++ body ++ close, by rw [← hfront, hbody]; simp⟩
  have hhalts : Halts close := by
    intro c more hshows
    rw [Json.skipBlank, List.dropWhile_eq_nil_iff.mpr hclose] at hshows
    cases hshows
  obtain ⟨hkind', hinner⟩ := (cuts fuel).opened (.inr rfl) hhalts h
  obtain ⟨range, heredoc, children⟩ := read
  have hend : Json.skipBlank (close ++ [')']) = [')'] := by
    rw [skipBlank_append hclose, skipBlank_cons (by decide)]
  rw [← hkind'] at hkind
  have hnode := readNode_eq_ok_iff.mpr
    ⟨inside ++ [')'], range, heredoc, children, _, rfl, hkind, hinner, hend, rfl⟩
  have hread := read_of_readNode hbefore hnode rfl
  rw [← List.cons_append, ← List.append_assoc] at hread
  exact ⟨before ++ '(' :: inside, by simp, _, hread⟩

theorem stopsAt_of_error {fuel : Nat} {before cs bad : List Char} (hbefore : Blanks before)
    (hcs : ∀ c more, cs = c :: more → Json.isBlank c = false)
    (hfuel : 3 * cs.length + 1 ≤ fuel + 1)
    (h : readNode (fuel + 1) cs = .error bad) :
    ∃ good, before ++ cs = good ++ bad ∧ StopsAt good bad := by
  rcases readNode_eq_error h with ⟨rfl, hopen⟩ | ⟨text, rfl, hinside⟩
  · refine ⟨before, rfl, .opening hbefore fun c more hcons => ⟨hcs c more hcons, ?_⟩⟩
    rintro rfl
    exact hopen more hcons
  rcases hinside with ⟨hkind, rfl⟩ | ⟨hkind, read, mid, hinner, rfl, hclose⟩
  · obtain ⟨inner, hblanks, htext⟩ := skipBlank_split text
    refine ⟨before ++ '(' :: inner, ?_, .kind hbefore hblanks fun c more hshows => ?_⟩
    · rw [List.append_assoc, List.cons_append, ← htext]
    · refine ⟨isBlank_of_skipBlank hshows, ?_⟩
      rw [kindOf, hshows, List.takeWhile_cons] at hkind
      simpa using hkind
  · obtain ⟨good, hgood, hread⟩ := exists_closed hbefore hkind hinner
    refine ⟨good, hgood, .child hread.choose_spec (fun c more hshows => ?_) ?_⟩
    · refine ⟨isBlank_of_skipBlank hshows, ?_⟩
      rintro rfl
      exact hclose more hshows
    · exact readTerm_behind_inner hinner (by rw [List.length_cons] at hfuel; omega)

/-- Where the root is read and more than blanks follow, it is read without what follows, too. -/
theorem stopsAt_of_ok {fuel : Nat} {before cs rest : List Char} {root : Head × List Term}
    (hbefore : Blanks before) (h : readNode fuel cs = .ok (root, rest))
    (hrest : Json.skipBlank rest ≠ []) :
    ∃ good, before ++ cs = good ++ Json.skipBlank rest ∧ StopsAt good (Json.skipBlank rest) := by
  obtain ⟨c, more, hshows⟩ := List.exists_cons_of_ne_nil hrest
  obtain ⟨after, hafter, hsplit⟩ := skipBlank_split rest
  obtain ⟨front, inner, close, hcs, -⟩ := (sound fuel).node h
  rw [hshows] at hsplit ⊢
  rw [hsplit, ← List.append_assoc] at hcs
  rw [hcs, hsplit] at h
  have hcut := (cuts fuel).node (.inl rfl) h
  rw [List.append_nil, List.append_nil] at hcut
  refine ⟨before ++ (parenthesize front inner close ++ after), by rw [hcs]; simp, ?_⟩
  exact .behind (read_of_readNode hbefore hcut (List.dropWhile_eq_nil_iff.mpr hafter))
    (isBlank_of_skipBlank hshows)

/-- The fault of a dump that cannot be read is the length of its readable part. -/
theorem exists_stopsAt {dump : String} (h : ∀ root, Dump.read dump ≠ .ok root) :
    ∃ good bad, dump.toList = good ++ bad ∧ StopsAt good bad ∧
      Dump.read dump = .error (.malformed (.unreadable (Text.byteLength good))) := by
  obtain ⟨before, hbefore, hsplit⟩ := skipBlank_split dump.toList
  have hoffset : ∀ {good bad : List Char}, dump.toList = good ++ bad →
      Text.byteLength dump.toList - Text.byteLength bad = Text.byteLength good := by
    intro good bad hdump
    rw [hdump, Text.byteLength_append, Nat.add_sub_cancel]
  cases hnode : readNode (3 * dump.toList.length + 3) (Json.skipBlank dump.toList) with
  | error bad =>
    have hlength := length_skipBlank_le dump.toList
    obtain ⟨good, hgood, hstops⟩ := stopsAt_of_error hbefore
      (fun c more hshows => isBlank_of_skipBlank hshows) (by omega) hnode
    rw [← hsplit] at hgood
    refine ⟨good, bad, hgood, hstops, ?_⟩
    simp only [Dump.read, hnode, hoffset hgood]
  | ok read =>
    obtain ⟨root, rest⟩ := read
    have hrest : Json.skipBlank rest ≠ [] := by
      intro hrest
      refine h root ?_
      simp only [Dump.read, hnode, hrest]
    obtain ⟨good, hgood, hstops⟩ := stopsAt_of_ok hbefore hnode hrest
    rw [← hsplit] at hgood
    refine ⟨good, _, hgood, hstops, ?_⟩
    simp only [Dump.read, hnode, hoffset hgood]

end Dump

namespace Tree

open Dump

/-- A dump that the guard lets pass and that cannot be read is refused at the end of its readable
part, which is not beyond the dump. -/
theorem ofDump_stops {path source dump : String} (hguard : guardNesting dump = .ok ())
    (hread : ∀ root, Dump.read dump ≠ .ok root) :
    ∃ good bad, dump.toList = good ++ bad ∧ StopsAt good bad ∧
      Text.byteLength good ≤ Text.byteLength dump.toList ∧
      ofDump path source dump = .error (.malformed (.unreadable (Text.byteLength good))) := by
  obtain ⟨good, bad, hdump, hstops, herror⟩ := exists_stopsAt hread
  refine ⟨good, bad, hdump, hstops, ?_, ?_⟩
  · rw [hdump, Text.byteLength_append]
    exact Nat.le_add_right _ _
  · rw [ofDump, hguard, herror]
    rfl

/-- A quoted symbol that is no literal and is read as a bare one, a child of its own, and a number
without an exponent, which is no child. The last quote is in no literal before it. -/
theorem ofDump_stops_quoted :
    let dump := "(a @1..2 :\"é\\q (b nil) 5e \"c\")"
    guardNesting dump = .ok () ∧ (∀ root, Dump.read dump ≠ .ok root) ∧
      ∃ good bad, dump.toList = good ++ bad ∧ StopsAt good bad ∧
        Text.byteLength good ≤ Text.byteLength dump.toList ∧
        ofDump "a.rb" "x" dump = .error (.malformed (.unreadable (Text.byteLength good))) := by
  intro dump
  have hguard : guardNesting dump = .ok () := by decide +kernel
  have hfault : Dump.read dump = .error (.malformed (.unreadable 24)) := by cbv
  have hread : ∀ root, Dump.read dump ≠ .ok root := by
    intro root hok
    rw [hfault] at hok
    cases hok
  exact ⟨hguard, hread, ofDump_stops hguard hread⟩

end Tree
end SpecUpgrade
