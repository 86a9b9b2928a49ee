import SpecUpgrade.Proofs.Derivation

/-!
How deep the trees of dumps are. The guard knows quotes but not symbols: behind a bare symbol that
leaves a quote open it takes nodes for text, and behind the next quote text for nodes.
-/

namespace SpecUpgrade

namespace Dump

mutual

theorem Term.depth_located : (term : Term) → term.located.depth = term.depth
  | .literal _ => rfl
  | .node _ children => by
    rw [Term.located, Term.depth, Term.depth, depthAll_located children]

theorem depthAll_located : (terms : List Term) → depthAll (locatedAll terms) = depthAll terms
  | [] => rfl
  | term :: terms => by
    rw [locatedAll, depthAll, depthAll, Term.depth_located term, depthAll_located terms]

end

theorem LooseDump.guardNesting_eq_ok_iff {bare : List Char → Prop}
    (hbare : ∀ run, bare run → ClosesQuotes run) {head : Head} {children : List Term}
    {dump : String} (h : LooseDump bare head children dump.toList) :
    Dump.guardNesting dump = .ok () ↔ (Term.node head children).depth ≤ maxNesting := by
  obtain ⟨hpass, hstop⟩ := h.guardNesting hbare
  rw [Term.depth]
  refine ⟨fun hok => ?_, hpass⟩
  by_contra hdeep
  obtain ⟨fault, hfault⟩ := hstop (by omega)
  rw [hfault] at hok
  cases hok

end Dump

namespace Tree

open Dump

/-- Where every bare symbol closes the quotes that it opens, the guard lets a dump pass exactly when
what is read from it nests no deeper than two hundred nodes, and no deeper tree is made of it. -/
theorem nesting_exact {dump : String} {head : Head} {children : List Term}
    (hread : Dump.read dump = .ok (head, children))
    (hquotes : LooseDump ClosesQuotes head children dump.toList) :
    (guardNesting dump = .ok () ↔ (Term.node head children).depth ≤ 200) ∧
      ∀ {path source : String} {t : Tree}, ofDump path source dump = .ok t →
        (t.term t.root).depth ≤ 200 := by
  have hexact := hquotes.guardNesting_eq_ok_iff fun _ => id
  refine ⟨hexact, fun h => ?_⟩
  obtain ⟨head', children', hguard, hread', -, -, hterm, -⟩ := unfolds_of_ofDump h
  obtain ⟨rfl, rfl⟩ := Prod.mk.inj (Except.ok.inj (hread'.symm.trans hread))
  rw [hterm, Term.depth_located]
  exact hexact.mp hguard

/-- A symbol with two quotes in it, of which the second closes the first. -/
theorem nesting_exact_closed :
    let dump := "(a :x\"y\"(b) :\"(\")"
    ∃ head children, Dump.read dump = .ok (head, children) ∧
      LooseDump ClosesQuotes head children dump.toList ∧
      (guardNesting dump = .ok () ↔ (Term.node head children).depth ≤ 200) ∧
      ∀ {path source : String} {t : Tree}, ofDump path source dump = .ok t →
        (t.term t.root).depth ≤ 200 := by
  intro dump
  have hread : Dump.read dump = .ok (⟨"a", none, none⟩, [.literal (.sym "x\"y\""),
      .node ⟨"b", none, none⟩ [], .literal (.sym "(")]) := by cbv
  have hnone : Blanks [] := by simp [Blanks]
  have hspace : Blanks [' '] := by simp [Blanks, Json.isBlank]
  have hclosed : ClosesQuotes "x\"y\"".toList := by decide
  have hsymbol : LooseLiteral ClosesQuotes (.sym "x\"y\"") (':' :: "x\"y\"".toList) :=
    .bare (by decide) (by simp [Text.isBlank]) hclosed
  have hname : Quoted ['('] "(".toList := .plain (by decide) (by decide) (by decide) .nil
  have houter : WrittenHead ⟨"a", none, none⟩ _ := .mk hnone (by simp) (by simp) .missing .missing
  have hinner : WrittenHead ⟨"b", none, none⟩ _ := .mk hnone (by simp) (by simp) .missing .missing
  have hquotes : LooseDump ClosesQuotes ⟨"a", none, none⟩ [.literal (.sym "x\"y\""),
      .node ⟨"b", none, none⟩ [], .literal (.sym "(")] dump.toList := by
    have hform := LooseDump.mk hnone houter
      (.literal hspace hsymbol
        (.node hnone hinner .nil hnone (.literal hspace (.written (.quoted hname)) .nil)))
      hnone hnone
    simpa [dump, parenthesize, quote] using hform
  exact ⟨_, _, hread, hquotes, nesting_exact hread hquotes⟩

private theorem exists_of_toOption_map {ε α β : Type} {x : Except ε α} {f : α → β} {v : β}
    (h : x.toOption.map f = some v) : ∃ a, x = .ok a ∧ f a = v := by
  cases x with
  | error e => cases h
  | ok a => exact ⟨a, rfl, Option.some.inj h⟩

/-- A node with so many others one in another behind a symbol with a quote. -/
def nodesBehindQuote (levels : Nat) : List Char :=
  ['(', 'a', ' ', ':', 'x', '"', ' '] ++ (List.replicate levels ['(', 'a', ' ']).flatten ++
    List.replicate (levels + 1) ')'

/-- A node with a text of so many parentheses behind a symbol with a quote. -/
def textBehindQuote (length : Nat) : List Char :=
  ['(', 'a', ' ', ':', 'x', '"', ' ', '"'] ++ List.replicate length '(' ++ ['"', ')']

/-- Behind a quote in a symbol the guard counts no nodes, and behind a second one the parentheses of
a text. -/
theorem nesting_missed :
    (∃ t, ofDump "a.rb" "" (String.ofList (nodesBehindQuote 200)) = .ok t ∧
      (t.term t.root).depth = 201) ∧
    (∃ head children, Dump.read (String.ofList (textBehindQuote 201)) = .ok (head, children) ∧
      (Term.node head children).depth = 1) ∧
    guardNesting (String.ofList (textBehindQuote 201)) =
      .error (.malformed (.tooDeep 207 200)) := by
  refine ⟨?_, ?_, ?_⟩
  · have hroot : ((Dump.read (String.ofList (nodesBehindQuote 200))).toOption.map fun root =>
        ((Term.node root.1 root.2).depth, (Term.node root.1 root.2).heads)) =
          some (201, List.replicate 201 ⟨"a", none, none⟩) := by
      rw [Dump.read, String.toList_ofList]
      decide +kernel
    have hguard : guardNesting (String.ofList (nodesBehindQuote 200)) = .ok () := by
      rw [guardNesting, String.toList_ofList]
      decide +kernel
    obtain ⟨root, hread, hshape⟩ := exists_of_toOption_map hroot
    obtain ⟨hdepth, hheads⟩ := Prod.mk.inj hshape
    have hfits : ∀ k ∈ (Term.node root.1 root.2).heads, k.Fits "" := by
      intro k hk
      rw [hheads] at hk
      rw [List.eq_of_mem_replicate hk]
      exact ⟨by simp, by simp⟩
    obtain ⟨t, ht, -, -, hterm, -⟩ := ofDump_of_fits hguard hread hfits
    exact ⟨t, ht, by rw [hterm, Term.depth_located, hdepth]⟩
  · have hroot : ((Dump.read (String.ofList (textBehindQuote 201))).toOption.map fun root =>
        (Term.node root.1 root.2).depth) = some 1 := by
      rw [Dump.read, String.toList_ofList]
      decide +kernel
    obtain ⟨root, hread, hdepth⟩ := exists_of_toOption_map hroot
    exact ⟨root.1, root.2, hread, hdepth⟩
  · rw [guardNesting, String.toList_ofList]
    decide +kernel

end Tree
end SpecUpgrade
