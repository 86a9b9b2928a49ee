import SpecUpgrade.Proofs.Probing

/-!
What a probe is given. The second half of a wrapper is one line of code and literals, and is read
back to the requests of its node, the path of the tree and the place of the node. So no two probes
with different arguments are written alike.
-/

namespace SpecUpgrade.Probe

/-! ## The body of a literal -/

/-- The characters that are not written as themselves. -/
def special : List Char := ['"', '\\', '#', '\n', '\r', '\t']

def escaped? : Char → Option Char
  | '"' => some '"'
  | '\\' => some '\\'
  | '#' => some '#'
  | 'n' => some '\n'
  | 'r' => some '\r'
  | 't' => some '\t'
  | _ => none

/-- The characters that the body of a literal stands for. A bare number sign may start an
interpolation, and such a body is refused. -/
def unescape? : List Char → Option (List Char)
  | [] => some []
  | ['\\'] => none
  | '\\' :: mark :: rest => (escaped? mark).bind fun c => (unescape? rest).map (c :: ·)
  | '#' :: _ => none
  | c :: rest => (unescape? rest).map (c :: ·)

/-- The characters of a body that are no part of an escape. -/
def bare : List Char → List Char
  | [] => []
  | '\\' :: _ :: rest => bare rest
  | c :: rest => c :: bare rest

def body (text : String) : String := String.ofList (text.toList.flatMap escapeChar)

theorem toList_body (text : String) : (body text).toList = text.toList.flatMap escapeChar :=
  String.toList_ofList

theorem toList_quote (text : String) :
    (quote text).toList = '"' :: (text.toList.flatMap escapeChar ++ ['"']) :=
  String.toList_ofList

/-- A character is written as itself, or behind a backslash by a mark that is no line break. -/
theorem escapeChar_eq (c : Char) :
    (c ∉ special ∧ escapeChar c = [c]) ∨
      c ∈ special ∧ ∃ mark, escapeChar c = ['\\', mark] ∧ escaped? mark = some c ∧
        mark ≠ '\n' ∧ mark ≠ '\r' := by
  by_cases hc : c ∈ special
  · refine .inr ⟨hc, ?_⟩
    simp only [special, List.mem_cons, List.not_mem_nil, or_false] at hc
    rcases hc with rfl | rfl | rfl | rfl | rfl | rfl <;>
      exact ⟨_, rfl, rfl, by decide, by decide⟩
  · refine .inl ⟨hc, ?_⟩
    unfold escapeChar
    split <;> simp_all [special]

theorem unescape?_cons {c : Char} (hc : c ∉ special) (rest : List Char) :
    unescape? (c :: rest) = (unescape? rest).map (c :: ·) := by
  simp only [special, List.mem_cons, List.not_mem_nil, or_false, not_or] at hc
  cases rest <;> simp [unescape?, hc]

theorem bare_cons {c : Char} (hc : c ∉ special) (rest : List Char) :
    bare (c :: rest) = c :: bare rest := by
  simp only [special, List.mem_cons, List.not_mem_nil, or_false, not_or] at hc
  cases rest <;> simp [bare, hc]

/-- The body of a literal stands for the text that it was made of. -/
theorem unescape?_flatMap (cs : List Char) : unescape? (cs.flatMap escapeChar) = some cs := by
  induction cs with
  | nil => rfl
  | cons c cs ih =>
    rw [List.flatMap_cons]
    rcases escapeChar_eq c with ⟨hc, heq⟩ | ⟨-, mark, heq, hmark, -⟩
    · rw [heq, List.singleton_append, unescape?_cons hc, ih, Option.map_some]
    · simp [heq, unescape?, hmark, ih]

/-- Special characters stand in a body only as escapes. -/
theorem bare_flatMap (cs : List Char) :
    bare (cs.flatMap escapeChar) = cs.filter (· ∉ special) := by
  induction cs with
  | nil => rfl
  | cons c cs ih =>
    rw [List.flatMap_cons]
    rcases escapeChar_eq c with ⟨hc, heq⟩ | ⟨hc, mark, heq, -⟩
    · rw [heq, List.singleton_append, bare_cons hc, ih, List.filter_cons_of_pos (by simpa using hc)]
    · rw [heq, List.filter_cons_of_neg (by simpa using hc), ← ih]
      simp [bare]

theorem not_mem_bare_body {c : Char} (hc : c ∈ special) (text : String) :
    c ∉ bare (body text).toList := by
  rw [toList_body, bare_flatMap, List.mem_filter]
  simp [hc]

/-! ## Code and literals -/

/-- A stretch of a line: bare code, or the body of a double-quoted literal. -/
inductive Segment where
  | code (text : String)
  | literal (body : String)
  deriving DecidableEq, Repr

/-- Reads code, or a literal, of which the first characters are known. A character behind a
backslash does not end a literal. A literal without an end is refused. -/
def segmentsFrom? : (inside : Bool) → (seen : List Char) → List Char → Option (List Segment)
  | false, seen, [] => some [.code (String.ofList seen)]
  | false, seen, '"' :: rest =>
    (segmentsFrom? true [] rest).map (.code (String.ofList seen) :: ·)
  | false, seen, c :: rest => segmentsFrom? false (seen ++ [c]) rest
  | true, _, [] => none
  | true, seen, '"' :: rest =>
    (segmentsFrom? false [] rest).map (.literal (String.ofList seen) :: ·)
  | true, seen, '\\' :: c :: rest => segmentsFrom? true (seen ++ ['\\', c]) rest
  | true, seen, c :: rest => segmentsFrom? true (seen ++ [c]) rest

/-- The code and the literals of a text, in order. -/
def segments? (text : String) : Option (List Segment) := segmentsFrom? false [] text.toList

theorem segmentsFrom?_code {code : List Char} (hcode : '"' ∉ code) (seen rest : List Char) :
    segmentsFrom? false seen (code ++ rest) = segmentsFrom? false (seen ++ code) rest := by
  induction code generalizing seen with
  | nil => rw [List.nil_append, List.append_nil]
  | cons c code ih =>
    obtain ⟨hc, hcode⟩ := not_or.mp (mt List.mem_cons.mpr hcode)
    rw [List.cons_append, segmentsFrom?, ih hcode, List.append_assoc, List.singleton_append]
    exact fun heq => hc heq.symm

theorem segmentsFrom?_body (cs seen rest : List Char) :
    segmentsFrom? true seen (cs.flatMap escapeChar ++ rest) =
      segmentsFrom? true (seen ++ cs.flatMap escapeChar) rest := by
  induction cs generalizing seen with
  | nil => rw [List.flatMap_nil, List.nil_append, List.append_nil]
  | cons c cs ih =>
    rw [List.flatMap_cons, List.append_assoc, ← List.append_assoc seen, ← ih]
    rcases escapeChar_eq c with ⟨hc, heq⟩ | ⟨-, mark, heq, -⟩
    · simp only [special, List.mem_cons, List.not_mem_nil, or_false, not_or] at hc
      rw [heq, List.singleton_append]
      cases cs.flatMap escapeChar ++ rest <;> simp [segmentsFrom?, hc]
    · simp [heq, segmentsFrom?]

/-- A literal ends the code before it, and its body is what was made of the text. -/
theorem segmentsFrom?_quote (seen : List Char) (text : String) (rest : List Char) :
    segmentsFrom? false seen ((quote text).toList ++ rest) =
      (segmentsFrom? false [] rest).map
        ([.code (String.ofList seen), .literal (body text)] ++ ·) := by
  rw [toList_quote, List.cons_append, segmentsFrom?, List.append_assoc, segmentsFrom?_body,
    List.nil_append, List.singleton_append, segmentsFrom?, Option.map_map]
  rfl

/-! ## Arguments -/

/-- What is written behind the wrapped code: the requests, the path of the file, and where the node
starts and stops. -/
structure Arguments where
  requests : List (String × Request)
  path : String
  start : Nat
  stop : Nat
  deriving DecidableEq, Repr

def text? (body : String) : Option String := (unescape? body.toList).map String.ofList

def number? (cs : List Char) : Option (Nat × List Char) :=
  (String.ofList (cs.takeWhile Char.isDigit)).toNat?.map (·, cs.dropWhile Char.isDigit)

/-- Two numbers, with a comma before each, up to the end of the arguments. -/
def bounds? (text : String) : Option (Nat × Nat) :=
  match text.toList with
  | ',' :: ' ' :: cs =>
    match number? cs with
    | some (start, ',' :: ' ' :: cs) =>
      match number? cs with
      | some (stop, [')']) => some (start, stop)
      | _ => none
    | _ => none
  | _ => none

/-- Reads what stands behind `lead`: pairs, of which the first follows a separator, the end of the
hash, a path and two numbers. -/
def argumentsFrom? : (lead separator : String) → List Segment → Option Arguments
  | lead, _, [.code opening, .literal path, .code bounds] =>
    if opening = lead ++ "\x7d, " then do
      let path ← text? path
      let (start, stop) ← bounds? bounds
      some ⟨[], path, start, stop⟩
    else none
  | lead, separator, .code opening :: .literal key :: .code arrow :: .literal target ::
      .code comma :: .literal code :: rest =>
    if opening = lead ++ separator ∧ arrow = " => [" ∧ comma = ", " then do
      let key ← text? key
      let target ← (text? target).bind Target.ofName?
      let code ← text? code
      let others ← argumentsFrom? "]" ", " rest
      some { others with requests := (key, ⟨target, code⟩) :: others.requests }
    else none
  | _, _, _ => none

/-- The arguments that the second half of a wrapper passes to the probe. -/
def arguments? (text : String) : Option Arguments :=
  (segments? text).bind (argumentsFrom? "), self, \x7b" "")

theorem text?_body (text : String) : text? (body text) = some text := by
  rw [text?, toList_body, unescape?_flatMap, Option.map_some, String.ofList_toList]

theorem ofName?_name (target : Target) : Target.ofName? target.name = some target := by
  cases target <;> rfl

/-- A number is read up to the first character that is no digit. -/
theorem number?_repr (n : Nat) {c : Char} (hc : c.isDigit = false) (rest : List Char) :
    number? ((Nat.repr n).toList ++ c :: rest) = some (n, c :: rest) := by
  have hdigits : ∀ d ∈ (Nat.repr n).toList, d.isDigit = true := fun _ => Text.isDigit_of_mem_repr
  rw [number?, List.takeWhile_append_of_pos hdigits, List.dropWhile_append_of_pos hdigits,
    List.takeWhile_cons_of_neg (by simp [hc]), List.dropWhile_cons_of_neg (by simp [hc]),
    List.append_nil, String.ofList_toList, Nat.toNat?_repr, Option.map_some]

def ending (range : Span) : String :=
  ", " ++ Nat.repr range.start ++ ", " ++ Nat.repr range.stop ++ ")"

theorem toList_ending (range : Span) :
    (ending range).toList = ',' :: ' ' :: ((Nat.repr range.start).toList ++
      ',' :: ' ' :: ((Nat.repr range.stop).toList ++ [')'])) := by
  simp [ending]

theorem bounds?_ending (range : Span) :
    bounds? (ending range) = some (range.start, range.stop) := by
  have hcomma : ','.isDigit = false := by decide
  have hclose : ')'.isDigit = false := by decide
  simp only [bounds?, toList_ending, number?_repr range.start hcomma,
    number?_repr range.stop hclose]

theorem quote_not_mem_ending (range : Span) : '"' ∉ (ending range).toList := by
  have hdigits : ∀ n, '"' ∉ (Nat.repr n).toList :=
    fun n hmem => absurd (Text.isDigit_of_mem_repr hmem) (by decide)
  simp [toList_ending, hdigits, -Nat.toList_repr]

/-! ## The second half of a wrapper -/

/-- The segments of pairs and of what follows them. -/
def argumentSegments (path bounds : String) :
    (lead separator : String) → List (String × Request) → List Segment
  | lead, _, [] => [.code (lead ++ "\x7d, "), .literal (body path), .code bounds]
  | lead, separator, (key, request) :: entries =>
    .code (lead ++ separator) :: .literal (body key) :: .code " => [" ::
      .literal (body request.target.name) :: .code ", " :: .literal (body request.code) ::
      argumentSegments path bounds "]" ", " entries

/-- Every literal was made of a text. -/
theorem literal_of_mem_argumentSegments {path bounds lead separator : String}
    {entries : List (String × Request)} {written : String}
    (h : .literal written ∈ argumentSegments path bounds lead separator entries) :
    ∃ text, written = body text := by
  induction entries generalizing lead separator with
  | nil =>
    simp only [argumentSegments, List.mem_cons, reduceCtorEq, false_or, List.not_mem_nil,
      or_false, Segment.literal.injEq] at h
    exact ⟨path, h⟩
  | cons entry entries ih =>
    simp only [argumentSegments, List.mem_cons, reduceCtorEq, false_or,
      Segment.literal.injEq] at h
    rcases h with h | h | h | h
    · exact ⟨_, h⟩
    · exact ⟨_, h⟩
    · exact ⟨_, h⟩
    · exact ih h

theorem argumentsFrom?_argumentSegments (path : String) (range : Span) (lead separator : String)
    (entries : List (String × Request)) :
    argumentsFrom? lead separator (argumentSegments path (ending range) lead separator entries) =
      some ⟨entries, path, range.start, range.stop⟩ := by
  induction entries generalizing lead separator with
  | nil => simp [argumentSegments, argumentsFrom?, text?_body, bounds?_ending]
  | cons entry entries ih =>
    simp [argumentSegments, argumentsFrom?, text?_body, ofName?_name, ih]

/-- The pairs of a hash, the first behind a separator and the others behind a comma. -/
def pairTexts (separator : String) : List (String × Request) → List Char
  | [] => []
  | entry :: entries => separator.toList ++ (pair entry).toList ++ pairTexts ", " entries

theorem toList_intercalate_pair (entries : List (String × Request)) :
    (String.intercalate ", " (entries.map pair)).toList = pairTexts "" entries := by
  induction entries with
  | nil => rfl
  | cons entry entries ih =>
    cases entries with
    | nil => simp [pairTexts]
    | cons next entries =>
      rw [List.map_cons, List.map_cons, String.intercalate_cons_cons, String.toList_append,
        ← List.map_cons, ih]
      simp [pairTexts]

theorem segmentsFrom?_argumentSegments (path : String) (range : Span) (lead separator : String)
    (hseparator : '"' ∉ separator.toList) (entries : List (String × Request)) :
    segmentsFrom? false lead.toList (pairTexts separator entries ++
        ("\x7d, ".toList ++ ((quote path).toList ++ (ending range).toList))) =
      some (argumentSegments path (ending range) lead separator entries) := by
  induction entries generalizing lead separator with
  | nil =>
    have hend := segmentsFrom?_code (quote_not_mem_ending range) [] []
    rw [List.append_nil, List.nil_append] at hend
    rw [pairTexts, List.nil_append, segmentsFrom?_code (by decide), segmentsFrom?_quote, hend]
    simp [argumentSegments, segmentsFrom?]
  | cons entry entries ih =>
    obtain ⟨key, request⟩ := entry
    simp only [pairTexts, pair, String.toList_append, List.append_assoc]
    rw [segmentsFrom?_code hseparator, segmentsFrom?_quote, segmentsFrom?_code (by decide),
      segmentsFrom?_quote, segmentsFrom?_code (by decide), segmentsFrom?_quote,
      segmentsFrom?_code (by decide)]
    simp only [List.nil_append]
    rw [ih "]" ", " (by decide)]
    simp [argumentSegments]

theorem rear_eq (t : Tree) (node : Nat) (entries : List (String × Request)) :
    rear t node entries = "), self, \x7b" ++ String.intercalate ", " (entries.map pair) ++ "\x7d, " ++
      quote t.path ++ ending (t.range node) := by
  have hrear : rear t node entries = "), self, \x7b" ++
      String.intercalate ", " (entries.map pair) ++ "\x7d, " ++ quote t.path ++ ", " ++
        Nat.repr (t.range node).start ++ ", " ++ Nat.repr (t.range node).stop ++ ")" := rfl
  simp only [hrear, ending, String.append_assoc]

theorem toList_rear (t : Tree) (node : Nat) (entries : List (String × Request)) :
    (rear t node entries).toList = "), self, \x7b".toList ++ (pairTexts "" entries ++
      ("\x7d, ".toList ++ ((quote t.path).toList ++ (ending (t.range node)).toList))) := by
  simp only [rear_eq, String.toList_append, List.append_assoc, toList_intercalate_pair]

/-- The literals of the second half are those of the requests and that of the path. -/
theorem segments?_rear (t : Tree) (node : Nat) (entries : List (String × Request)) :
    segments? (rear t node entries) =
      some (argumentSegments t.path (ending (t.range node)) "), self, \x7b" "" entries) := by
  rw [segments?, toList_rear, segmentsFrom?_code (by decide), List.nil_append,
    segmentsFrom?_argumentSegments _ _ _ _ (by decide)]

theorem arguments?_rear (t : Tree) (node : Nat) (entries : List (String × Request)) :
    arguments? (rear t node entries) =
      some ⟨entries, t.path, (t.range node).start, (t.range node).stop⟩ := by
  rw [arguments?, segments?_rear, Option.bind_some, argumentsFrom?_argumentSegments]

/-- Probes with different arguments are not written alike. -/
theorem rear_inj {t t' : Tree} {node node' : Nat} {entries entries' : List (String × Request)} :
    rear t node entries = rear t' node' entries' ↔
      entries = entries' ∧ t.path = t'.path ∧ t.range node = t'.range node' := by
  constructor
  · intro heq
    have hread := congrArg arguments? heq
    rw [arguments?_rear, arguments?_rear, Option.some.injEq, Arguments.mk.injEq] at hread
    obtain ⟨hentries, hpath, hstart, hstop⟩ := hread
    exact ⟨hentries, hpath, Span.eq_of_bounds hstart hstop⟩
  · rintro ⟨rfl, hpath, hrange⟩
    simp only [rear_eq, hpath, hrange]

/-! ## Line breaks -/

/-- The text has no line break. -/
def OneLine (text : List Char) : Prop := ∀ c ∈ text, c ≠ '\n' ∧ c ≠ '\r'

theorem oneLine_append {front back : List Char} :
    OneLine (front ++ back) ↔ OneLine front ∧ OneLine back := List.forall_mem_append

theorem oneLine_quote (text : String) : OneLine (quote text).toList := by
  intro d hd
  rw [toList_quote, List.mem_cons, List.mem_append, List.mem_flatMap, List.mem_singleton] at hd
  rcases hd with rfl | ⟨c, -, hd⟩ | rfl
  · decide
  · rcases escapeChar_eq c with ⟨hc, heq⟩ | ⟨-, mark, heq, -, hmark⟩
    · rw [heq, List.mem_singleton] at hd
      subst hd
      exact ⟨fun h => hc (h ▸ by decide), fun h => hc (h ▸ by decide)⟩
    · rw [heq, List.mem_cons, List.mem_singleton] at hd
      rcases hd with rfl | rfl
      · decide
      · exact hmark
  · decide

theorem oneLine_repr (n : Nat) : OneLine (Nat.repr n).toList := by
  intro c hc
  have hdigit := Text.isDigit_of_mem_repr hc
  constructor <;> rintro rfl <;> exact absurd hdigit (by decide)

theorem oneLine_pairTexts {separator : String} (hseparator : OneLine separator.toList)
    (entries : List (String × Request)) : OneLine (pairTexts separator entries) := by
  induction entries generalizing separator with
  | nil => exact List.forall_mem_nil _
  | cons entry entries ih =>
    have harrow : OneLine " => [".toList := by simp [OneLine]
    have hcomma : OneLine ", ".toList := by simp [OneLine]
    have hclose : OneLine "]".toList := by simp [OneLine]
    simp only [pairTexts, pair, String.toList_append, oneLine_append, oneLine_quote, hseparator,
      harrow, hcomma, hclose, ih hcomma, and_self]

theorem oneLine_ending (range : Span) : OneLine (ending range).toList := by
  have hcomma : OneLine ", ".toList := by simp [OneLine]
  have hclose : OneLine ")".toList := by simp [OneLine]
  simp only [ending, String.toList_append, oneLine_append, oneLine_repr, hcomma, hclose, and_self]

theorem oneLine_rear (t : Tree) (node : Nat) (entries : List (String × Request)) :
    OneLine (rear t node entries).toList := by
  have hopen : OneLine "), self, \x7b".toList := by simp [OneLine]
  have hclose : OneLine "\x7d, ".toList := by simp [OneLine]
  have hpairs : OneLine (pairTexts "" entries) := oneLine_pairTexts (by simp [OneLine]) entries
  simp only [toList_rear, oneLine_append, oneLine_quote, oneLine_ending, hpairs, hopen, hclose,
    and_self]

/-! ## Reading back -/

/-- The second half of the wrapper of a node with requests is one line, and no literal in it has a
quote or a number sign that is not escaped. What is read back from it are the requests of the node
in the order of their keys, the path of the tree, and where the node itself starts and stops. So
another wrapper has the same second half only if its requests, path and place are the same. -/
theorem rear_decodes {t : Tree} {requests : Requests} (hrequests : Registered t requests)
    {node : Nat} {entries : List (String × Request)}
    (hfound : SortedMap.find? node requests = some entries) :
    let text := rear t node entries
    OneLine text.toList ∧
      (∃ segments, segments? text = some segments ∧ ∀ written, .literal written ∈ segments →
        '"' ∉ bare written.toList ∧ '#' ∉ bare written.toList) ∧
      (entries.map (·.1)).Pairwise (· < ·) ∧
      arguments? text = some ⟨entries, t.path, (t.range node).start, (t.range node).stop⟩ ∧
      ∀ (t' : Tree) (node' : Nat) (entries' : List (String × Request)),
        rear t' node' entries' = text ↔
          entries' = entries ∧ t'.path = t.path ∧ t'.range node' = t.range node := by
  have hescaped : ∀ written, .literal written ∈
      argumentSegments t.path (ending (t.range node)) "), self, \x7b" "" entries →
        '"' ∉ bare written.toList ∧ '#' ∉ bare written.toList := by
    intro written hwritten
    obtain ⟨text, rfl⟩ := literal_of_mem_argumentSegments hwritten
    exact ⟨not_mem_bare_body (by decide) text, not_mem_bare_body (by decide) text⟩
  exact ⟨oneLine_rear t node entries, ⟨_, segments?_rear t node entries, hescaped⟩,
    hrequests.entries_ascending hfound, arguments?_rear t node entries,
    fun t' node' entries' => rear_inj⟩

set_option maxRecDepth 2048 in
/-- A call that is wrapped with its block is asked two questions, with quotes, number signs and a
line break in their texts: the offsets that are read back are those of the call. -/
theorem rear_decodes_call :
    let entries : List (String × Request) :=
      [("#\x7b1\x7d", ⟨.value, "\"\\"⟩), ("k\n", ⟨.context, "c"⟩)]
    ∃ t,
      Tree.ofDump "a\"#.rb" "p \x7b \x7d" "(block @0..5 (send @0..1 nil :p) (args) nil)" = .ok t ∧
      target t 0 = 2 ∧ (t.range 2).stop = 5 ∧ Registered t [(0, entries)] ∧
      SortedMap.find? 0 [(0, entries)] = some entries ∧
      arguments? (rear t 0 entries) = some ⟨entries, "a\"#.rb", 0, 1⟩ := by
  intro entries
  have hcheck :
      (Tree.ofDump "a\"#.rb" "p \x7b \x7d" "(block @0..5 (send @0..1 nil :p) (args) nil)").map
        (fun t => (t.size, target t 0, (t.range 2).stop, t.path, (t.range 0).start,
          (t.range 0).stop)) = .ok (3, 2, 5, "a\"#.rb", 0, 1) := by cbv
  obtain ⟨t, hread, hcheck⟩ := Tree.map_eq_ok_iff.mp hcheck
  simp only [Prod.mk.injEq] at hcheck
  obtain ⟨hsize, htarget, hblock, hpath, hstart, hstop⟩ := hcheck
  have hnode : 0 < t.size := by rw [hsize]; decide
  have hfirst : Registered t [(0, [("k\n", ⟨.context, "c"⟩)])] := .register .none hnode rfl
  have hsecond : register t [(0, [("k\n", ⟨.context, "c"⟩)])] 0 "#\x7b1\x7d" ⟨.value, "\"\\"⟩ =
      .ok [(0, entries)] := rfl
  have hregistered : Registered t [(0, entries)] := .register hfirst hnode hsecond
  have hfound : SortedMap.find? 0 [(0, entries)] = some entries := rfl
  have hdecoded := (rear_decodes hregistered hfound).2.2.2.1
  rw [hpath, hstart, hstop] at hdecoded
  exact ⟨t, hread, htarget, hblock, hregistered, hfound, hdecoded⟩

end SpecUpgrade.Probe
