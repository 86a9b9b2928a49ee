import Mathlib
import SpecUpgrade.Probe.Instrument
import SpecUpgrade.Proofs.Brackets
import SpecUpgrade.Proofs.Kinship

/-!
Source with probes. The wrapper of a node reaches from the start of what is wrapped for the node to
the point where it is closed. No probe is left out, and the halves of the wrappers, each put in at its
own place, are all that the text with probes has beside the source.
-/

namespace SpecUpgrade

namespace Probe

/-! ## Registered requests -/

/-- Requests that were made one after the other for nodes of a tree. -/
inductive Registered (t : Tree) : Requests → Prop
  | none : Registered t []
  | register {requests requests' : Requests} {node : Nat} {key : String} {request : Request} :
      Registered t requests → node < t.size →
        Probe.register t requests node key request = .ok requests' → Registered t requests'

/-- A request that is accepted was there already or is added to those of its node. -/
theorem register_eq_ok {t : Tree} {requests requests' : Requests} {node : Nat} {key : String}
    {request : Request} (h : register t requests node key request = .ok requests') :
    requests' = requests ∨ requests' = SortedMap.insert node
      (SortedMap.insert key request ((SortedMap.find? node requests).getD [])) requests := by
  unfold register at h
  simp only at h
  split at h
  · split at h
    · cases h
      exact Or.inl rfl
    · cases h
  · cases h
    exact Or.inr rfl

theorem Registered.ascending {t : Tree} {requests : Requests} (h : Registered t requests) :
    (requests.map (·.1)).Pairwise (· < ·) := by
  induction h with
  | none => exact List.Pairwise.nil
  | register _ _ hregister ih =>
    rcases register_eq_ok hregister with rfl | rfl
    · exact ih
    · exact SortedMap.insert_ascending ih

/-- The requests of one node are in the order of their keys. -/
theorem Registered.entries_ascending {t : Tree} {requests : Requests} (h : Registered t requests)
    {node : Nat} {entries : List (String × Request)}
    (hfound : SortedMap.find? node requests = some entries) :
    (entries.map (·.1)).Pairwise (· < ·) := by
  induction h generalizing node entries with
  | none => cases hfound
  | @register requests _ asked _ _ _ _ hregister ih =>
    rcases register_eq_ok hregister with rfl | rfl
    · exact ih hfound
    · rw [SortedMap.find?_insert] at hfound
      split at hfound
      · cases hfound
        refine SortedMap.insert_ascending ?_
        cases hold : SortedMap.find? asked requests with
        | none => exact List.Pairwise.nil
        | some old => exact ih hold
      · exact ih hfound

/-! ## What is wrapped and where it is closed -/

/-- A call is wrapped with the block that it is the first child of, any other node alone. -/
inductive WrappedWith (t : Tree) (node : Nat) : Nat → Prop
  | block {p : Nat} : t.parent? node = some p → t.kind p = "block" ∨ t.kind p = "numblock" →
      (t.children p).head? = some (.node node) → WrappedWith t node p
  | alone : (∀ p ∈ t.parent? node, t.kind p = "block" ∨ t.kind p = "numblock" →
      (t.children p).head? ≠ some (.node node)) → WrappedWith t node node

theorem slot?_eq_zero_iff {t : Tree} {node p : Nat} (hparent : t.parent? node = some p) :
    t.slot? node = some 0 ↔ (t.children p).head? = some (.node node) := by
  rw [Tree.slot?, hparent]
  change (t.children p).findIdx? _ = some 0 ↔ _
  cases t.children p with
  | nil => simp
  | cons c cs => cases c <;> simp [List.findIdx?_cons, Child.node?]

theorem wrappedWith_target (t : Tree) (node : Nat) : WrappedWith t node (target t node) := by
  unfold target
  cases hparent : t.parent? node with
  | none => exact .alone (by simp [hparent])
  | some p =>
    simp only [Bool.and_eq_true, Bool.or_eq_true, beq_iff_eq, slot?_eq_zero_iff hparent]
    split
    · rename_i hblock
      exact .block hparent hblock.1 hblock.2
    · rename_i hblock
      refine .alone fun q hq hkind hfirst => hblock ?_
      obtain rfl := Option.mem_unique hparent hq
      exact ⟨hkind, hfirst⟩

/-- A heredoc at or below a node has its body up to the offset, and none has it further. -/
structure LastHeredoc (t : Tree) (node stop : Nat) : Prop where
  ends : ∃ id, (id = node ∨ node ∈ t.ancestors id) ∧ ∃ body ∈ t.body? id, body.stop = stop
  last : ∀ id, id = node ∨ node ∈ t.ancestors id → ∀ body ∈ t.body? id, body.stop ≤ stop

theorem heredocEnd?_eq_some_iff {t : Tree} (ht : t.Built) {node stop : Nat} :
    t.heredocEnd? node = some stop ↔ LastHeredoc t node stop := by
  simp only [Tree.heredocEnd?_eq_some_iff, ht.mem_preorder_iff]
  exact ⟨fun h => ⟨h.1, h.2⟩, fun h => ⟨h.ends, h.last⟩⟩

/-- Only blanks, or blanks and a comment, stand between the offset and the end of its line. -/
def EndsLine (source : String) (offset : Nat) : Prop :=
  ∃ before blanks rest, source.toList = before ++ (blanks ++ rest) ∧
    Text.byteLength before = offset ∧ (∀ c ∈ blanks, Text.isBlank c = true ∧ c ≠ '\n') ∧
    ∀ c ∈ rest.head?, c = '\n' ∨ c = '#'

theorem lineIsDone_iff {source : String} {offset : Nat}
    (h : Text.isBoundary source.toList offset = true) :
    lineIsDone source offset = true ↔ EndsLine source offset := by
  constructor
  · intro hdone
    let after := Text.dropTo offset source.toList
    let line := after.takeWhile (· != '\n')
    have hline : line ++ after.dropWhile (· != '\n') = after := List.takeWhile_append_dropWhile
    have hblanks : line.takeWhile Text.isBlank ++ line.dropWhile Text.isBlank = line :=
      List.takeWhile_append_dropWhile
    refine ⟨Text.takeTo offset source.toList, line.takeWhile Text.isBlank,
      line.dropWhile Text.isBlank ++ after.dropWhile (· != '\n'), ?_, Text.byteLength_takeTo h,
      fun c hc => ?_, fun c hc => ?_⟩
    · rw [← List.append_assoc (line.takeWhile Text.isBlank), hblanks, hline,
        Text.takeTo_append_dropTo]
    · have hmem : c ∈ line := (List.takeWhile_prefix _).subset hc
      exact ⟨List.mem_takeWhile_imp hc, by simpa using List.mem_takeWhile_imp hmem⟩
    · rw [lineIsDone, Text.trimStart] at hdone
      cases hrest : line.dropWhile Text.isBlank with
      | nil =>
        rw [hrest, List.nil_append] at hc
        have hnot := List.head?_dropWhile_not (· != '\n') after
        rw [Option.mem_def.mp hc] at hnot
        exact .inl (by simpa using hnot)
      | cons d ds =>
        rw [hrest] at hdone hc
        obtain rfl : d = c := by simpa using hc
        exact .inr (by simpa using hdone)
  · rintro ⟨before, blanks, rest, hsource, rfl, hblanks, hrest⟩
    have hline : (blanks ++ rest).takeWhile (· != '\n') =
        blanks ++ rest.takeWhile (· != '\n') :=
      List.takeWhile_append_of_pos fun c hc => by simpa using (hblanks c hc).2
    rw [lineIsDone, hsource, Text.dropTo_byteLength, hline, Text.trimStart,
      List.dropWhile_append_of_pos fun c hc => (hblanks c hc).1]
    cases rest with
    | nil => rfl
    | cons c cs =>
      rcases hrest c rfl with rfl | rfl
      · rfl
      · rw [List.takeWhile_cons_of_pos (by decide), List.dropWhile_cons_of_neg (by decide)]
        rfl

/-! ## Wrappers -/

/-- Where the last heredoc of a target ends, if the wrapper is closed only there: it ends after the
target, and the line of the target holds no more code. -/
def lateEnd? (t : Tree) (target : Nat) : Option Nat :=
  (t.heredocEnd? target).filter fun stop =>
    decide ((t.range target).stop < stop) && lineIsDone t.source (t.range target).stop

theorem lateEnd?_eq_some_iff {t : Tree} (ht : t.Built) {target stop : Nat} :
    lateEnd? t target = some stop ↔ LastHeredoc t target stop ∧ (t.range target).stop < stop ∧
      EndsLine t.source (t.range target).stop := by
  rw [lateEnd?, Option.filter_eq_some_iff, heredocEnd?_eq_some_iff ht,
    Bool.and_eq_true, decide_eq_true_eq, lineIsDone_iff (Tree.range_fits ht target).stop_boundary]

/-- Where the wrapper of a target is closed. -/
def closingPoint (t : Tree) (target : Nat) : Nat := (lateEnd? t target).getD (t.range target).stop

theorem start_le_closingPoint (t : Tree) (target : Nat) :
    (t.range target).start ≤ closingPoint t target := by
  have hle := (t.range target).start_le_stop
  unfold closingPoint
  cases hlate : lateEnd? t target with
  | none => exact hle
  | some stop =>
    have hlater := (Option.filter_eq_some_iff.mp hlate).2
    rw [Bool.and_eq_true, decide_eq_true_eq] at hlater
    exact Nat.le_trans hle (Nat.le_of_lt hlater.1)

/-- What the wrapper of a node reaches over. -/
def extent (t : Tree) (node : Nat) : Span :=
  ⟨(t.range (target t node)).start, closingPoint t (target t node), start_le_closingPoint t _⟩

/-- The call behind the node: the receiver, the requests, the path and the place of the node. -/
def callEnd (t : Tree) (entry : Nat × List (String × Request)) : String :=
  let answers := entry.2.map fun (key, request) =>
    String.join [quote key, " => [", quote request.target.name, ", ", quote request.code, "]"]
  String.join ["), self, \x7b", String.intercalate ", " answers, "\x7d, ", quote t.path, ", ",
    Nat.repr (t.range entry.1).start, ", ", Nat.repr (t.range entry.1).stop, ")"]

theorem rear_eq_callEnd (t : Tree) (entry : Nat × List (String × Request)) :
    rear t entry.1 entry.2 = callEnd t entry := by
  have hpair : pair = fun (key, request) =>
      String.join [quote key, " => [", quote request.target.name, ", ", quote request.code, "]"] := by
    funext entry
    simp [pair, String.join]
  rw [callEnd, ← hpair]
  simp only [String.join, List.foldl_cons, List.foldl_nil, String.empty_append]
  rfl

/-- The call behind the node as it is put in, on a line of its own behind a heredoc. -/
def closingText (t : Tree) (entry : Nat × List (String × Request)) : String :=
  if (lateEnd? t (target t entry.1)).isSome then "\n" ++ callEnd t entry else callEnd t entry

/-- Of nodes with one extent the smaller is inside. -/
def wrapper (t : Tree) (entry : Nat × List (String × Request)) : Bracket :=
  ⟨extent t entry.1, entry.1, "respec_analyze((", closingText t entry⟩

/-- A wrapper is closed at the end of its extent. -/
theorem closing_eq (t : Tree) (entry : Nat × List (String × Request)) :
    closing t (target t entry.1) (rear t entry.1 entry.2) =
      .insertAfter (extent t entry.1) (closingText t entry) := by
  rw [rear_eq_callEnd]
  cases hlate : lateEnd? t (target t entry.1) with
  | some stop =>
    obtain ⟨hend, hlater⟩ := Option.filter_eq_some_iff.mp hlate
    rw [Bool.and_eq_true, decide_eq_true_eq] at hlater
    simp only [closing, hend, dif_pos hlater, extent, closingPoint, closingText, hlate,
      Option.getD_some, Option.isSome_some, if_true]
  | none =>
    have hearly : closing t (target t entry.1) (callEnd t entry) =
        .insertAfter (t.range (target t entry.1)) (callEnd t entry) := by
      unfold closing
      split
      · rename_i stop hend
        refine dif_neg fun hlater => Option.filter_eq_none_iff.mp hlate stop hend ?_
        rw [Bool.and_eq_true, decide_eq_true_eq]
        exact hlater
      · rfl
    rw [hearly]
    simp only [extent, closingPoint, closingText, hlate, Option.getD_none, Option.isSome_none,
      Bool.false_eq_true, if_false]

/-- What is wrapped for the node of a bracket. The first text is put in before it, though the bracket
may reach further. -/
def anchor (t : Tree) (b : Bracket) : Span := t.range (target t b.rank)

theorem edits_eq (t : Tree) (entry : Nat × List (String × Request)) :
    edits t entry.1 entry.2 = (wrapper t entry).edits (anchor t) := by
  rw [edits, closing_eq]
  rfl

theorem extent_fits {t : Tree} (ht : t.Built) (node : Nat) : (extent t node).Fits t.source := by
  have hfits := Tree.range_fits ht (target t node)
  have hstop : Text.isBoundary t.source.toList (closingPoint t (target t node)) = true := by
    unfold closingPoint
    cases hlate : lateEnd? t (target t node) with
    | none => exact hfits.stop_boundary
    | some stop => exact ht.heredocEnd?_boundary (Option.filter_eq_some_iff.mp hlate).1
  exact ⟨Text.le_byteLength_of_isBoundary hstop, hfits.start_boundary, hstop⟩

/-! ## All probes of a tree -/

def allEdits (t : Tree) (requests : Requests) : List Edit :=
  (requests.map (wrapper t)).flatMap (Bracket.edits (anchor t))

theorem allEdits_cons (t : Tree) (entry : Nat × List (String × Request)) (requests : Requests) :
    allEdits t (entry :: requests) = edits t entry.1 entry.2 ++ allEdits t requests := by
  rw [edits_eq, allEdits, List.map_cons, List.flatMap_cons, ← allEdits]

/-- Probes only put texts in, at places that fit the source. -/
theorem insertion_of_mem_allEdits {t : Tree} (ht : t.Built) {requests : Requests} {e : Edit}
    (he : e ∈ allEdits t requests) : e.range.Fits t.source ∧ e.side ≠ .replace := by
  refine Bracket.insertion_of_mem_edits (fun b hb => ?_) (fun b _ => Tree.range_fits ht _) he
  obtain ⟨entry, -, rfl⟩ := List.mem_map.mp hb
  exact extent_fits ht entry.1

theorem insertion_of_mem_edits {t : Tree} (ht : t.Built) {entry : Nat × List (String × Request)}
    {e : Edit} (he : e ∈ edits t entry.1 entry.2) :
    e.range.Fits t.source ∧ e.side ≠ .replace := by
  have hall : e ∈ allEdits t [entry] := by
    rw [allEdits_cons]
    exact List.mem_append_left _ he
  exact insertion_of_mem_allEdits ht hall

/-- One more probe is never refused. -/
theorem addProbe_eq {t : Tree} (ht : t.Built) {accepted : List Edit}
    (haccepted : ∀ e ∈ accepted, e.range.Fits t.source ∧ e.side ≠ .replace)
    (done skipped : List Nat) (entry : Nat × List (String × Request)) :
    addProbe t (⟨t.source, accepted⟩, done, skipped) entry =
      (⟨t.source, accepted ++ edits t entry.1 entry.2⟩, done ++ [entry.1], skipped) := by
  have hall : Revision.Sound t.source (accepted ++ edits t entry.1 entry.2) :=
    Revision.sound_of_insertions fun e he =>
      (List.mem_append.mp he).elim (haccepted e) (insertion_of_mem_edits ht)
  have hsubmit := (Revision.submitAll_eq_ok_iff (r := ⟨t.source, accepted⟩)
    (Revision.sound_of_insertions haccepted) (edits t entry.1 entry.2) _).mpr ⟨rfl, hall⟩
  simp only [addProbe, hsubmit]

theorem foldl_addProbe_eq {t : Tree} (ht : t.Built) {accepted : List Edit}
    (haccepted : ∀ e ∈ accepted, e.range.Fits t.source ∧ e.side ≠ .replace)
    (done skipped : List Nat) (requests : Requests) :
    requests.foldl (addProbe t) (⟨t.source, accepted⟩, done, skipped) =
      (⟨t.source, accepted ++ allEdits t requests⟩, done ++ requests.map (·.1), skipped) := by
  induction requests generalizing accepted done with
  | nil => simp [allEdits]
  | cons entry requests ih =>
    rw [List.foldl_cons, addProbe_eq ht haccepted, ih fun e he =>
      (List.mem_append.mp he).elim (haccepted e) (insertion_of_mem_edits ht)]
    simp [allEdits_cons]

/-- Every probe is put in. -/
theorem instrument_eq {t : Tree} (ht : t.Built) (requests : Requests) :
    instrument t requests =
      ⟨Revision.render ⟨t.source, allEdits t requests⟩, requests.map (·.1), []⟩ := by
  have hnone : ∀ e ∈ ([] : List Edit), e.range.Fits t.source ∧ e.side ≠ .replace := by simp
  have hfold := foldl_addProbe_eq ht hnone [] [] requests
  rw [List.nil_append, List.nil_append] at hfold
  simp only [instrument, Revision.ofSource, hfold]

theorem sound_allEdits {t : Tree} (ht : t.Built) (requests : Requests) :
    Revision.Sound t.source (allEdits t requests) :=
  Revision.sound_of_insertions fun _ => insertion_of_mem_allEdits ht

/-! ## What is put in -/

/-- The two texts of a probe, each with the offset at which it is put in. What is wrapped stands
between them, and a heredoc that ends after it if nothing but blanks or a comment follows it on its
line. -/
inductive Halves (t : Tree) (entry : Nat × List (String × Request)) : List (Nat × String) → Prop
  | late {wrapped stop : Nat} : WrappedWith t entry.1 wrapped → LastHeredoc t wrapped stop →
      (t.range wrapped).stop < stop → EndsLine t.source (t.range wrapped).stop →
      Halves t entry [((t.range wrapped).start, "respec_analyze(("), (stop, "\n" ++ callEnd t entry)]
  | plain {wrapped : Nat} : WrappedWith t entry.1 wrapped →
      (∀ stop, LastHeredoc t wrapped stop → (t.range wrapped).stop < stop →
        ¬EndsLine t.source (t.range wrapped).stop) →
      Halves t entry [((t.range wrapped).start, "respec_analyze(("),
        ((t.range wrapped).stop, callEnd t entry)]

def halves (t : Tree) (entry : Nat × List (String × Request)) : List (Nat × String) :=
  [((t.range (target t entry.1)).start, "respec_analyze(("),
    (closingPoint t (target t entry.1), closingText t entry)]

theorem halves_spec {t : Tree} (ht : t.Built) (entry : Nat × List (String × Request)) :
    Halves t entry (halves t entry) := by
  have hwrapped := wrappedWith_target t entry.1
  unfold halves closingPoint closingText
  cases hlate : lateEnd? t (target t entry.1) with
  | some stop =>
    obtain ⟨hlast, hlater, hends⟩ := (lateEnd?_eq_some_iff ht).mp hlate
    exact .late hwrapped hlast hlater hends
  | none =>
    refine .plain hwrapped fun stop hlast hlater hends => ?_
    cases hlate.symm.trans ((lateEnd?_eq_some_iff ht).mpr ⟨hlast, hlater, hends⟩)

theorem map_allEdits (t : Tree) (requests : Requests) :
    (allEdits t requests).map (fun e => (e.position, e.text)) =
      (requests.map (halves t)).flatten := by
  rw [allEdits, List.flatMap_map, List.map_flatMap]
  rfl

/-- No node with requests is skipped, and all of them are listed in ascending order. The text with
probes consists of the bytes of the source, in order, and the two halves of each probe, which stand
around what is wrapped for the node; without them the source is left. -/
theorem instrument_inserts {t : Tree} (ht : t.Built) {requests : Requests}
    (hrequests : Registered t requests) :
    let out := instrument t requests
    out.skipped = [] ∧ out.instrumented = requests.map (·.1) ∧
      out.instrumented.Pairwise (· < ·) ∧
      ∃ (inserted : List (List (Nat × String))) (pieces : List Revision.Piece),
        List.Forall₂ (Halves t) requests inserted ∧
        Utf8.encode out.source = pieces.flatMap (Revision.Piece.bytes (Utf8.encode t.source)) ∧
        pieces.filterMap Revision.Piece.offset? = List.range (Text.byteLength t.source.toList) ∧
        (Revision.insertedFrom 0 pieces).Perm inserted.flatten ∧
        (Revision.withoutTexts pieces).flatMap (Revision.Piece.bytes (Utf8.encode t.source)) =
          Utf8.encode t.source := by
  have hsound := sound_allEdits ht requests
  have hsides : ∀ e ∈ allEdits t requests, e.side ≠ .replace :=
    fun e he => (insertion_of_mem_allEdits ht he).2
  have hinserted := Revision.insertedFrom_pieces hsound hsides
  have hoffsets := Revision.offsets_of_insertions t.source hsides
  rw [map_allEdits] at hinserted
  have hhalves : List.Forall₂ (Halves t) requests (requests.map (halves t)) :=
    List.forall₂_map_right_iff.mpr (List.forall₂_same.mpr fun entry _ => halves_spec ht entry)
  rw [instrument_eq ht]
  exact ⟨rfl, rfl, hrequests.ascending, requests.map (halves t),
    Revision.pieces t.source (allEdits t requests), hhalves,
    Revision.encode_render (r := ⟨t.source, _⟩) hsound, hoffsets, hinserted,
    Revision.bytes_withoutTexts hoffsets⟩

set_option maxRecDepth 2048 in
/-- A call with a heredoc, whose probe is closed behind the heredoc. -/
theorem instrument_inserts_heredoc :
    ∃ t, Tree.ofDump "a.rb" "p <<A\nA\n" "(send @0..5 nil :p (str @2..5 ~6..7))" = .ok t ∧
      Registered t [(1, [("k", ⟨.value, "c"⟩)])] ∧
      (instrument t [(1, [("k", ⟨.value, "c"⟩)])]).source =
        "respec_analyze((p <<A\nA\n), self, \x7b\"k\" => [\"self\", \"c\"]\x7d, \"a.rb\", 0, 5)\n" ∧
      (instrument t [(1, [("k", ⟨.value, "c"⟩)])]).skipped = [] := by
  have hcheck : (Tree.ofDump "a.rb" "p <<A\nA\n" "(send @0..5 nil :p (str @2..5 ~6..7))").map
      (fun t => (t.size, Revision.render ⟨t.source, allEdits t [(1, [("k", ⟨.value, "c"⟩)])]⟩)) =
        .ok (2,
          "respec_analyze((p <<A\nA\n), self, \x7b\"k\" => [\"self\", \"c\"]\x7d, \"a.rb\", 0, 5)\n") := by
    cbv
  cases hread : Tree.ofDump "a.rb" "p <<A\nA\n" "(send @0..5 nil :p (str @2..5 ~6..7))" with
  | error e =>
    rw [hread] at hcheck
    cases hcheck
  | ok t =>
    rw [hread] at hcheck
    obtain ⟨hsize, hsource⟩ := Prod.mk.inj (Except.ok.inj hcheck)
    have hregistered : Registered t [(1, [("k", ⟨.value, "c"⟩)])] :=
      .register .none (by rw [hsize]; decide) rfl
    have ht := Tree.built_of_ofDump hread
    exact ⟨t, rfl, hregistered, by rw [instrument_eq ht, hsource],
      (instrument_inserts ht hregistered).1⟩

end Probe
end SpecUpgrade
