import SpecUpgrade.Dump

/-!
The written forms of a dump. A tree has many: blanks may stand almost anywhere, numbers may have
leading zeros, a text may be escaped in more than one way, and a symbol may be quoted without need.
The guard on the nesting counts the levels of the tree itself, whatever its written form.
-/

namespace SpecUpgrade.Dump

/-! ## Tokens -/

/-- A run of spaces, tabs, carriage returns and line feeds. -/
def Blanks (ws : List Char) : Prop := ∀ c ∈ ws, Json.isBlank c = true

/-- Decimal digits and the number that they stand for. -/
inductive Decimal : List Char → Nat → Prop where
  | digit (d : Nat) (hd : d < 10) : Decimal [Nat.digitChar d] d
  | more {cs : List Char} {n : Nat} (hcs : Decimal cs n) (d : Nat) (hd : d < 10) :
      Decimal (cs ++ [Nat.digitChar d]) (n * 10 + d)

/-- What stands between the quotes of a string literal, and the text that it denotes. -/
inductive Quoted : List Char → List Char → Prop where
  | nil : Quoted [] []
  | plain {c : Char} {written text : List Char} (hquote : c ≠ '"') (hslash : c ≠ '\\')
      (hcontrol : 0x20 ≤ c.toNat) (hrest : Quoted written text) :
      Quoted (c :: written) (c :: text)
  | escape {e c : Char} {written text : List Char} (he : Json.escaped? e = some c)
      (hrest : Quoted written text) : Quoted ('\\' :: e :: written) (c :: text)
  | unit {a b c d : Char} {u : Nat} {written text : List Char}
      (hu : Json.hexUnit? a b c d = some u) (hchar : u < 0xD800 ∨ 0xDFFF < u)
      (hrest : Quoted written text) :
      Quoted ('\\' :: 'u' :: a :: b :: c :: d :: written) (Char.ofNat u :: text)
  | pair {a b c d a' b' c' d' : Char} {u v : Nat} {written text : List Char}
      (hu : Json.hexUnit? a b c d = some u) (hhigh : 0xD800 ≤ u ∧ u < 0xDC00)
      (hv : Json.hexUnit? a' b' c' d' = some v) (hlow : 0xDC00 ≤ v ∧ v ≤ 0xDFFF)
      (hrest : Quoted written text) :
      Quoted ('\\' :: 'u' :: a :: b :: c :: d :: '\\' :: 'u' :: a' :: b' :: c' :: d' :: written)
        (Char.ofNat (0x10000 + (u - 0xD800) * 0x400 + (v - 0xDC00)) :: text)

def quote (written : List Char) : List Char := '"' :: (written ++ ['"'])

/-- A symbol may be written bare when it is not empty and holds no white space, no parenthesis and
no quote. -/
def BareChar (c : Char) : Prop := Text.isBlank c = false ∧ c ≠ '(' ∧ c ≠ ')' ∧ c ≠ '"'

inductive WrittenLiteral : Literal → List Char → Prop where
  | nil : WrittenLiteral .nil ['n', 'i', 'l']
  | yes : WrittenLiteral (.bool true) ['t', 'r', 'u', 'e']
  | no : WrittenLiteral (.bool false) ['f', 'a', 'l', 's', 'e']
  | int {cs : List Char} {n : Nat} (hcs : Decimal cs n) (hn : n < Word.half64) :
      WrittenLiteral (.int n) cs
  | negative {cs : List Char} {n : Nat} (hcs : Decimal cs n) (hn : n ≤ Word.half64) :
      WrittenLiteral (.int (-(n : Int))) ('-' :: cs)
  | bare {name : String} (hne : name.toList ≠ []) (hname : ∀ c ∈ name.toList, BareChar c) :
      WrittenLiteral (.sym name) (':' :: name.toList)
  | quoted {name : String} {written : List Char} (hname : Quoted written name.toList) :
      WrittenLiteral (.sym name) (':' :: quote written)
  | str {text : String} {written : List Char} (htext : Quoted written text.toList) :
      WrittenLiteral (.str text) (quote written)

/-! ## Nodes -/

/-- Two offsets below two to the sixty-fourth after a mark, or nothing. -/
inductive Marked (mark : Char) : Option Bounds → List Char → Prop where
  | missing : Marked mark none []
  | given {ws front back : List Char} {start stop : Nat} (hws : Blanks ws)
      (hfront : Decimal front start) (hstart : start < Word.bound64)
      (hback : Decimal back stop) (hstop : stop < Word.bound64) :
      Marked mark (some (start, stop)) (ws ++ mark :: (front ++ '.' :: '.' :: back))

/-- A kind is not empty and made of ASCII letters, digits and underscores. -/
inductive WrittenHead : Head → List Char → Prop where
  | mk {kind : String} {range heredoc : Option Bounds} {ws front back : List Char}
      (hws : Blanks ws) (hne : kind.toList ≠ [])
      (hkind : ∀ c ∈ kind.toList, c.isAlphanum = true ∨ c = '_')
      (hrange : Marked '@' range front) (hheredoc : Marked '~' heredoc back) :
      WrittenHead ⟨kind, range, heredoc⟩ (ws ++ kind.toList ++ front ++ back)

def parenthesize (head children close : List Char) : List Char :=
  '(' :: (head ++ children ++ close ++ [')'])

/-- Terms with at least one blank before each of them. -/
inductive WrittenTerms : List Term → List Char → Prop where
  | nil : WrittenTerms [] []
  | literal {l : Literal} {terms : List Term} {ws cs more : List Char} (hws : Blanks ws)
      (hne : ws ≠ []) (hl : WrittenLiteral l cs) (hmore : WrittenTerms terms more) :
      WrittenTerms (.literal l :: terms) (ws ++ cs ++ more)
  | node {head : Head} {children terms : List Term} {ws front inner close more : List Char}
      (hws : Blanks ws) (hne : ws ≠ []) (hhead : WrittenHead head front)
      (hchildren : WrittenTerms children inner) (hclose : Blanks close)
      (hmore : WrittenTerms terms more) :
      WrittenTerms (.node head children :: terms) (ws ++ parenthesize front inner close ++ more)

/-- A whole dump: one node with blanks around it. -/
inductive WrittenDump (head : Head) (children : List Term) : List Char → Prop where
  | mk {before front inner close after : List Char} (hbefore : Blanks before)
      (hhead : WrittenHead head front) (hchildren : WrittenTerms children inner)
      (hclose : Blanks close) (hafter : Blanks after) :
      WrittenDump head children (before ++ parenthesize front inner close ++ after)

/-! ## Looser forms

The reader takes more than that: numbers with a fraction or an exponent, symbols with quotes in
them, and terms that follow each other without a blank. -/

/-- The digits behind a point, if there is a point. -/
inductive WrittenFraction : List Char → List Char → Prop where
  | missing : WrittenFraction [] []
  | given {digits : List Char} (hdigits : ∀ c ∈ digits, c.isDigit = true) :
      WrittenFraction digits ('.' :: digits)

def sign : Bool → List Char
  | true => ['-']
  | false => []

/-- The exponent of a number, if it has one. -/
inductive WrittenExponent : Int → List Char → Prop where
  | missing : WrittenExponent 0 []
  | unsigned {e : Char} {cs : List Char} {n : Nat} (he : e = 'e' ∨ e = 'E') (hcs : Decimal cs n) :
      WrittenExponent n (e :: cs)
  | positive {e : Char} {cs : List Char} {n : Nat} (he : e = 'e' ∨ e = 'E') (hcs : Decimal cs n) :
      WrittenExponent n (e :: '+' :: cs)
  | negative {e : Char} {cs : List Char} {n : Nat} (he : e = 'e' ∨ e = 'E') (hcs : Decimal cs n) :
      WrittenExponent (-(n : Int)) (e :: '-' :: cs)

/-- The forms of a literal. A number is the nearest binary64 number when it has a fraction or an
exponent, or when it is no integer of sixty-four bits. A bare symbol may hold quotes, but `bare`
says in which runs of characters. -/
inductive LooseLiteral (bare : List Char → Prop) : Literal → List Char → Prop where
  | written {l : Literal} {cs : List Char} (h : WrittenLiteral l cs) : LooseLiteral bare l cs
  | real {negative : Bool} {whole digits fraction power : List Char} {n : Nat} {e : Int}
      (hne : whole ≠ []) (hwhole : ∀ c ∈ whole, c.isDigit = true)
      (hfraction : WrittenFraction digits fraction) (hpower : WrittenExponent e power)
      (hn : Decimal (whole ++ digits) n)
      (hwide : fraction = [] → power = [] →
        if negative then Word.half64 < n else Word.half64 ≤ n) :
      LooseLiteral bare
        (.float (Binary64.signed negative (Binary64.ofDecimal n (e - digits.length))))
        (sign negative ++ (whole ++ fraction ++ power))
  | bare {name : String} (hne : name.toList ≠ [])
      (hname : ∀ c ∈ name.toList, Text.isBlank c = false ∧ c ≠ '(' ∧ c ≠ ')')
      (hbare : bare name.toList) : LooseLiteral bare (.sym name) (':' :: name.toList)

/-- Terms with any blanks before each of them. -/
inductive LooseTerms (bare : List Char → Prop) : List Term → List Char → Prop where
  | nil : LooseTerms bare [] []
  | literal {l : Literal} {terms : List Term} {ws cs more : List Char} (hws : Blanks ws)
      (hl : LooseLiteral bare l cs) (hmore : LooseTerms bare terms more) :
      LooseTerms bare (.literal l :: terms) (ws ++ cs ++ more)
  | node {head : Head} {children terms : List Term} {ws front inner close more : List Char}
      (hws : Blanks ws) (hhead : WrittenHead head front)
      (hchildren : LooseTerms bare children inner) (hclose : Blanks close)
      (hmore : LooseTerms bare terms more) :
      LooseTerms bare (.node head children :: terms)
        (ws ++ parenthesize front inner close ++ more)

/-- A whole dump in a looser form. -/
inductive LooseDump (bare : List Char → Prop) (head : Head) (children : List Term) :
    List Char → Prop where
  | mk {before front inner close after : List Char} (hbefore : Blanks before)
      (hhead : WrittenHead head front) (hchildren : LooseTerms bare children inner)
      (hclose : Blanks close) (hafter : Blanks after) :
      LooseDump bare head children (before ++ parenthesize front inner close ++ after)

theorem WrittenTerms.loose (bare : List Char → Prop) {terms : List Term} {cs : List Char}
    (h : WrittenTerms terms cs) : LooseTerms bare terms cs := by
  induction h with
  | nil => exact .nil
  | literal hws _ hl _ ih => exact .literal hws (.written hl) ih
  | node hws _ hhead _ hclose _ ihchildren ihmore => exact .node hws hhead ihchildren hclose ihmore

theorem WrittenDump.loose (bare : List Char → Prop) {head : Head} {children : List Term}
    {cs : List Char} (h : WrittenDump head children cs) : LooseDump bare head children cs := by
  cases h with
  | mk hbefore hhead hchildren hclose hafter =>
    exact .mk hbefore hhead (hchildren.loose bare) hclose hafter

/-! ## The nesting of a tree -/

mutual

def Term.depth : Term → Nat
  | .literal _ => 0
  | .node _ children => depthAll children + 1

def depthAll : List Term → Nat
  | [] => 0
  | term :: terms => max term.depth (depthAll terms)

end

/-- There are written terms of every depth. -/
theorem exists_writtenTerms (levels : Nat) :
    ∃ terms cs, WrittenTerms terms cs ∧ depthAll terms = levels := by
  induction levels with
  | zero => exact ⟨[], [], .nil, rfl⟩
  | succ levels ih =>
    obtain ⟨terms, cs, hterms, hdepth⟩ := ih
    have hnone : Blanks [] := by simp [Blanks]
    have hhead : WrittenHead ⟨"begin", none, none⟩ _ :=
      .mk hnone (by simp) (by simp) .missing .missing
    refine ⟨[.node ⟨"begin", none, none⟩ terms], _,
      .node (by simp [Blanks, Json.isBlank]) (List.cons_ne_nil ' ' []) hhead hterms hnone .nil, ?_⟩
    simp [depthAll, Term.depth, hdepth]

/-! ## The guard -/

/-- The guard goes through the text without a change of its depth. -/
def Passes (depth : Nat) (cs : List Char) : Prop :=
  ∀ offset rest, tooDeep? offset depth .outside (cs ++ rest) =
    tooDeep? (offset + Text.byteLength cs) depth .outside rest

theorem Passes.append {depth : Nat} {xs ys : List Char} (hxs : Passes depth xs)
    (hys : Passes depth ys) : Passes depth (xs ++ ys) := by
  intro offset rest
  rw [List.append_assoc, hxs, hys, Text.byteLength_append, Nat.add_assoc]

/-- A character that the guard does not look at. -/
def Plain (c : Char) : Prop := c ≠ '"' ∧ c ≠ '(' ∧ c ≠ ')'

theorem passes_plain {cs : List Char} (h : ∀ c ∈ cs, Plain c) (depth : Nat) : Passes depth cs := by
  intro offset rest
  induction cs generalizing offset with
  | nil => rfl
  | cons c cs ih =>
    obtain ⟨hquote, hopen, hclose⟩ := h c (by simp)
    rw [List.cons_append, tooDeep?, if_neg hquote, if_neg hopen, if_neg hclose,
      ih fun d hd => h d (by simp [hd])]
    simp [Text.byteLength, Nat.add_assoc]

theorem Blanks.plain {ws : List Char} (h : Blanks ws) : ∀ c ∈ ws, Plain c := by
  intro c hc
  have hblank := h c hc
  refine ⟨?_, ?_, ?_⟩ <;>
  · rintro rfl
    exact absurd hblank (by decide)

/-- What the digits of a number are. -/
theorem Decimal.isDigit {cs : List Char} {n : Nat} (h : Decimal cs n) :
    ∀ c ∈ cs, c.isDigit = true := by
  have hdigit : ∀ d < 10, (Nat.digitChar d).isDigit = true := by decide
  induction h with
  | digit d hd => simpa using hdigit d hd
  | more hcs d hd ih =>
    intro c hc
    rcases List.mem_append.mp hc with hc | hc
    · exact ih c hc
    · rw [List.mem_singleton.mp hc]
      exact hdigit d hd

theorem plain_of_isDigit {c : Char} (h : c.isDigit = true) : Plain c := by
  refine ⟨?_, ?_, ?_⟩ <;>
  · rintro rfl
    exact absurd h (by decide)

theorem Marked.plain {mark : Char} {bounds : Option Bounds} {cs : List Char}
    (h : Marked mark bounds cs) (hmark : Plain mark) : ∀ c ∈ cs, Plain c := by
  cases h with
  | missing => simp
  | given hws hfront hstart hback hstop =>
    intro c hc
    simp only [List.mem_append, List.mem_cons] at hc
    rcases hc with hc | rfl | hc | rfl | rfl | hc
    · exact hws.plain c hc
    · exact hmark
    · exact plain_of_isDigit (hfront.isDigit c hc)
    · exact ⟨by decide, by decide, by decide⟩
    · exact ⟨by decide, by decide, by decide⟩
    · exact plain_of_isDigit (hback.isDigit c hc)

theorem WrittenHead.plain {head : Head} {cs : List Char} (h : WrittenHead head cs) :
    ∀ c ∈ cs, Plain c := by
  cases h with
  | mk hws hne hkind hrange hheredoc =>
    intro c hc
    simp only [List.mem_append] at hc
    rcases hc with ((hc | hc) | hc) | hc
    · exact hws.plain c hc
    · have hkind := hkind c hc
      refine ⟨?_, ?_, ?_⟩ <;>
      · rintro rfl
        exact absurd hkind (by decide)
    · exact hrange.plain ⟨by decide, by decide, by decide⟩ c hc
    · exact hheredoc.plain ⟨by decide, by decide, by decide⟩ c hc

private theorem inside_step {offset depth : Nat} {c : Char} {cs : List Char} (hquote : c ≠ '"')
    (hslash : c ≠ '\\') :
    tooDeep? offset depth .inside (c :: cs) = tooDeep? (offset + c.utf8Size) depth .inside cs := by
  rw [tooDeep?, if_neg hslash, if_neg hquote]

private theorem escape_step {offset depth : Nat} {c : Char} {cs : List Char} :
    tooDeep? offset depth .inside ('\\' :: c :: cs) =
      tooDeep? (offset + ('\\' : Char).utf8Size + c.utf8Size) depth .inside cs := by
  rw [tooDeep?, if_pos rfl, tooDeep?]

private theorem hexUnit?_eq_some {a b c d : Char} {u : Nat} (h : Json.hexUnit? a b c d = some u) :
    ∀ x ∈ [a, b, c, d], x ≠ '"' ∧ x ≠ '\\' := by
  simp only [Json.hexUnit?, Option.bind_eq_bind, Option.bind_eq_some_iff] at h
  obtain ⟨_, ha, _, hb, _, hc, _, hd, -⟩ := h
  have hplain : ∀ {x : Char} {n : Nat}, Json.hexValue? x = some n → x ≠ '"' ∧ x ≠ '\\' := by
    intro x n hx
    constructor <;>
    · rintro rfl
      exact absurd hx (by simp [Json.hexValue?])
  simp only [List.mem_cons, List.not_mem_nil, or_false]
  rintro x (rfl | rfl | rfl | rfl)
  · exact hplain ha
  · exact hplain hb
  · exact hplain hc
  · exact hplain hd

private theorem unit_step {offset depth : Nat} {a b c d : Char} {u : Nat} {cs : List Char}
    (h : Json.hexUnit? a b c d = some u) :
    tooDeep? offset depth .inside ('\\' :: 'u' :: a :: b :: c :: d :: cs) =
      tooDeep? (offset + Text.byteLength ['\\', 'u', a, b, c, d]) depth .inside cs := by
  have hplain := hexUnit?_eq_some h
  obtain ⟨ha, ha'⟩ := hplain a (by simp)
  obtain ⟨hb, hb'⟩ := hplain b (by simp)
  obtain ⟨hc, hc'⟩ := hplain c (by simp)
  obtain ⟨hd, hd'⟩ := hplain d (by simp)
  rw [escape_step, inside_step ha ha', inside_step hb hb', inside_step hc hc', inside_step hd hd']
  simp only [Text.byteLength, Nat.add_assoc, Nat.add_zero]

/-- In a string literal the guard stays inside up to the quote that ends it. -/
theorem Quoted.inside {written text : List Char} (h : Quoted written text) (offset depth : Nat)
    (rest : List Char) :
    tooDeep? offset depth .inside (written ++ rest) =
      tooDeep? (offset + Text.byteLength written) depth .inside rest := by
  induction h generalizing offset with
  | nil => rfl
  | plain hquote hslash hcontrol hrest ih =>
    rw [List.cons_append, inside_step hquote hslash, ih, Text.byteLength, Nat.add_assoc]
  | escape he hrest ih =>
    rw [List.cons_append, List.cons_append, escape_step, ih]
    simp only [Text.byteLength, Nat.add_assoc]
  | unit hu hchar hrest ih =>
    simp only [List.cons_append]
    rw [unit_step hu, ih]
    simp only [Text.byteLength, Nat.add_assoc, Nat.add_zero]
  | pair hu hhigh hv hlow hrest ih =>
    simp only [List.cons_append]
    rw [unit_step hu, unit_step hv, ih]
    simp only [Text.byteLength, Nat.add_assoc, Nat.add_zero]

theorem Quoted.passes {written text : List Char} (h : Quoted written text) (depth : Nat) :
    Passes depth (quote written) := by
  intro offset rest
  rw [quote, List.cons_append, List.append_assoc, tooDeep?, if_pos rfl, h.inside,
    List.singleton_append, tooDeep?, if_neg (by decide), if_pos rfl]
  simp only [Text.byteLength, Text.byteLength_append, Nat.add_assoc, Nat.add_zero]

theorem WrittenLiteral.passes {l : Literal} {cs : List Char} (h : WrittenLiteral l cs)
    (depth : Nat) : Passes depth cs := by
  cases h with
  | nil => exact passes_plain (by simp [Plain]) depth
  | yes => exact passes_plain (by simp [Plain]) depth
  | no => exact passes_plain (by simp [Plain]) depth
  | int hcs hn => exact passes_plain (fun c hc => plain_of_isDigit (hcs.isDigit c hc)) depth
  | negative hcs hn =>
    apply passes_plain
    intro c hc
    rcases List.mem_cons.mp hc with rfl | hc
    · exact ⟨by decide, by decide, by decide⟩
    · exact plain_of_isDigit (hcs.isDigit c hc)
  | bare hne hname =>
    apply passes_plain
    intro c hc
    rcases List.mem_cons.mp hc with rfl | hc
    · exact ⟨by decide, by decide, by decide⟩
    · obtain ⟨-, hopen, hclose, hquote⟩ := hname c hc
      exact ⟨hquote, hopen, hclose⟩
  | quoted hname =>
    have hcolon : Passes depth [':'] := passes_plain (by simp [Plain]) depth
    exact hcolon.append (hname.passes depth)
  | str htext => exact htext.passes depth

/-- The guard goes through a text of so many levels, or stops in it when they are too many. -/
def Guarded (levels : Nat) (cs : List Char) : Prop :=
  ∀ depth ≤ maxNesting,
    (depth + levels ≤ maxNesting → Passes depth cs) ∧
      (maxNesting < depth + levels →
        ∀ offset rest, ∃ place, tooDeep? offset depth .outside (cs ++ rest) = some place)

theorem guarded_of_passes {cs : List Char} (h : ∀ depth, Passes depth cs) : Guarded 0 cs :=
  fun depth hdepth => ⟨fun _ => h depth, fun hdeep => by omega⟩

theorem Guarded.append {a b : Nat} {xs ys : List Char} (hxs : Guarded a xs) (hys : Guarded b ys) :
    Guarded (max a b) (xs ++ ys) := by
  intro depth hdepth
  obtain ⟨hpass, hstop⟩ := hxs depth hdepth
  obtain ⟨hpass', hstop'⟩ := hys depth hdepth
  refine ⟨fun hlevels => (hpass (by omega)).append (hpass' (by omega)), ?_⟩
  intro hlevels offset rest
  rw [List.append_assoc]
  by_cases ha : maxNesting < depth + a
  · exact hstop ha offset _
  · rw [hpass (by omega)]
    exact hstop' (by omega) _ _

/-- A node is one level above what is in it. -/
theorem guarded_node {levels : Nat} {front inner close : List Char}
    (hfront : ∀ c ∈ front, Plain c) (hinner : Guarded levels inner) (hclose : Blanks close) :
    Guarded (levels + 1) (parenthesize front inner close) := by
  intro depth hdepth
  have hopen : ∀ offset rest, depth < maxNesting →
      tooDeep? offset depth .outside (parenthesize front inner close ++ rest) =
        tooDeep? (offset + ('(' : Char).utf8Size + Text.byteLength front) (depth + 1) .outside
          (inner ++ (close ++ [')'] ++ rest)) := by
    intro offset rest hlt
    simp only [parenthesize, List.cons_append, List.append_assoc]
    rw [tooDeep?, if_neg (by decide), if_pos rfl, if_pos hlt, passes_plain hfront]
  constructor
  · intro hlevels offset rest
    obtain ⟨hpass, -⟩ := hinner (depth + 1) (by omega)
    rw [hopen offset rest (by omega), hpass (by omega), List.append_assoc,
      passes_plain hclose.plain, List.singleton_append, tooDeep?, if_neg (by decide),
      if_neg (by decide), if_pos rfl, Nat.add_sub_cancel]
    simp only [parenthesize, Text.byteLength, Text.byteLength_append, Nat.add_assoc, Nat.add_zero]
  · intro hlevels offset rest
    by_cases hlt : depth < maxNesting
    · obtain ⟨-, hstop⟩ := hinner (depth + 1) (by omega)
      rw [hopen offset rest hlt]
      exact hstop (by omega) _ _
    · refine ⟨offset, ?_⟩
      rw [parenthesize, List.cons_append, tooDeep?, if_neg (by decide), if_pos rfl, if_neg hlt]

theorem Blanks.guarded {ws : List Char} (h : Blanks ws) : Guarded 0 ws :=
  guarded_of_passes (passes_plain h.plain)

/-- Where the guard stands after a text without parentheses. -/
def Quoting.after : Quoting → List Char → Quoting
  | q, [] => q
  | .escaped, _ :: cs => Quoting.inside.after cs
  | .inside, c :: cs =>
    (if c = '\\' then Quoting.escaped else if c = '"' then .outside else .inside).after cs
  | .outside, c :: cs => (if c = '"' then Quoting.inside else .outside).after cs

/-- Every quote that the run opens it also closes. -/
def ClosesQuotes (run : List Char) : Prop := Quoting.outside.after run = .outside

instance (run : List Char) : Decidable (ClosesQuotes run) := inferInstanceAs (Decidable (_ = _))

theorem tooDeep?_append {run : List Char} (h : ∀ c ∈ run, c ≠ '(' ∧ c ≠ ')') (q : Quoting)
    (offset depth : Nat) (rest : List Char) :
    tooDeep? offset depth q (run ++ rest) =
      tooDeep? (offset + Text.byteLength run) depth (q.after run) rest := by
  induction run generalizing q offset with
  | nil => simp [Text.byteLength, Quoting.after]
  | cons c run ih =>
    obtain ⟨hopen, hclose⟩ := h c (by simp)
    have hrest := ih fun d hd => h d (by simp [hd])
    cases q with
    | escaped => rw [List.cons_append, tooDeep?, hrest, Quoting.after, Text.byteLength, Nat.add_assoc]
    | inside => rw [List.cons_append, tooDeep?, hrest, Quoting.after, Text.byteLength, Nat.add_assoc]
    | outside =>
      rw [List.cons_append, tooDeep?, if_neg hopen, if_neg hclose, Quoting.after, Text.byteLength]
      split <;> rw [hrest, Nat.add_assoc]

theorem ClosesQuotes.passes {run : List Char} (h : ClosesQuotes run)
    (hrun : ∀ c ∈ run, c ≠ '(' ∧ c ≠ ')') (depth : Nat) : Passes depth run := by
  intro offset rest
  rw [tooDeep?_append hrun, h]

theorem WrittenFraction.plain {digits cs : List Char} (h : WrittenFraction digits cs) :
    ∀ c ∈ cs, Plain c := by
  cases h with
  | missing => simp
  | given hdigits =>
    intro c hc
    rcases List.mem_cons.mp hc with rfl | hc
    · exact ⟨by decide, by decide, by decide⟩
    · exact plain_of_isDigit (hdigits c hc)

theorem WrittenExponent.plain {e : Int} {cs : List Char} (h : WrittenExponent e cs) :
    ∀ c ∈ cs, Plain c := by
  have hletter : ∀ {c : Char}, c = 'e' ∨ c = 'E' → Plain c := by
    rintro c (rfl | rfl) <;> exact ⟨by decide, by decide, by decide⟩
  have hsign : Plain '+' ∧ Plain '-' :=
    ⟨⟨by decide, by decide, by decide⟩, ⟨by decide, by decide, by decide⟩⟩
  cases h with
  | missing => simp
  | unsigned he hcs =>
    intro c hc
    rcases List.mem_cons.mp hc with rfl | hc
    · exact hletter he
    · exact plain_of_isDigit (hcs.isDigit c hc)
  | positive he hcs =>
    intro c hc
    rcases List.mem_cons.mp hc with rfl | hc
    · exact hletter he
    · rcases List.mem_cons.mp hc with rfl | hc
      · exact hsign.1
      · exact plain_of_isDigit (hcs.isDigit c hc)
  | negative he hcs =>
    intro c hc
    rcases List.mem_cons.mp hc with rfl | hc
    · exact hletter he
    · rcases List.mem_cons.mp hc with rfl | hc
      · exact hsign.2
      · exact plain_of_isDigit (hcs.isDigit c hc)

theorem sign_plain (negative : Bool) : ∀ c ∈ sign negative, Plain c := by
  cases negative with
  | false => simp [sign]
  | true =>
    intro c hc
    rw [List.mem_singleton.mp hc]
    exact ⟨by decide, by decide, by decide⟩

theorem LooseLiteral.passes {bare : List Char → Prop} (hbare : ∀ run, bare run → ClosesQuotes run)
    {l : Literal} {cs : List Char} (h : LooseLiteral bare l cs) (depth : Nat) :
    Passes depth cs := by
  cases h with
  | written h => exact h.passes depth
  | @real negative _ _ _ _ _ _ hne hwhole hfraction hpower hn hwide =>
    apply passes_plain
    intro c hc
    simp only [List.mem_append] at hc
    rcases hc with hc | (hc | hc) | hc
    · exact sign_plain negative c hc
    · exact plain_of_isDigit (hwhole c hc)
    · exact hfraction.plain c hc
    · exact hpower.plain c hc
  | bare hne hname hrun =>
    have hcolon : Passes depth [':'] := passes_plain (by simp [Plain]) depth
    exact hcolon.append ((hbare _ hrun).passes (fun c hc => (hname c hc).2) depth)

theorem LooseTerms.guarded {bare : List Char → Prop} (hbare : ∀ run, bare run → ClosesQuotes run)
    {terms : List Term} {cs : List Char} (h : LooseTerms bare terms cs) :
    Guarded (depthAll terms) cs := by
  induction h with
  | nil => exact guarded_of_passes fun _ _ _ => rfl
  | literal hws hl hmore ih =>
    have hliteral := hws.guarded.append (guarded_of_passes (hl.passes hbare))
    exact hliteral.append ih
  | node hws hhead hchildren hclose hmore ihchildren ihmore =>
    have hnode := hws.guarded.append (guarded_node hhead.plain ihchildren hclose)
    rw [Nat.zero_max] at hnode
    exact hnode.append ihmore

theorem LooseDump.guarded {bare : List Char → Prop} (hbare : ∀ run, bare run → ClosesQuotes run)
    {head : Head} {children : List Term} {cs : List Char} (h : LooseDump bare head children cs) :
    Guarded (depthAll children + 1) cs := by
  cases h with
  | mk hbefore hhead hchildren hclose hafter =>
    have hnode := guarded_node hhead.plain (hchildren.guarded hbare) hclose
    have hdump := (hbefore.guarded.append hnode).append hafter.guarded
    rwa [Nat.zero_max, Nat.max_zero] at hdump

/-- The guard lets a dump pass exactly when its tree nests no deeper than it may. -/
theorem LooseDump.guardNesting {bare : List Char → Prop}
    (hbare : ∀ run, bare run → ClosesQuotes run) {head : Head} {children : List Term}
    {dump : String} (h : LooseDump bare head children dump.toList) :
    (depthAll children + 1 ≤ maxNesting → Dump.guardNesting dump = .ok ()) ∧
      (maxNesting < depthAll children + 1 →
        ∃ fault, Dump.guardNesting dump = .error (.malformed fault)) := by
  obtain ⟨hpass, hstop⟩ := h.guarded hbare 0 (Nat.zero_le _)
  rw [Nat.zero_add] at hpass hstop
  unfold Dump.guardNesting
  constructor
  · intro hlevels
    have hend := hpass hlevels 0 []
    rw [List.append_nil, tooDeep?] at hend
    rw [hend]
  · intro hlevels
    obtain ⟨place, hplace⟩ := hstop hlevels 0 []
    rw [List.append_nil] at hplace
    rw [hplace]
    exact ⟨_, rfl⟩

theorem WrittenDump.guardNesting {head : Head} {children : List Term} {dump : String}
    (h : WrittenDump head children dump.toList) :
    (depthAll children + 1 ≤ maxNesting → Dump.guardNesting dump = .ok ()) ∧
      (maxNesting < depthAll children + 1 →
        ∃ fault, Dump.guardNesting dump = .error (.malformed fault)) :=
  (h.loose ClosesQuotes).guardNesting fun _ => id

end SpecUpgrade.Dump
