import SpecUpgrade.Proofs.Arena
import SpecUpgrade.Proofs.Reading

/-!
The tree that is built from what a dump says. Its nodes stand in post-order with the root last, and
unfolding it from the root gives back what was read.
-/

namespace SpecUpgrade

/-! ## Unfolding a tree -/

namespace Tree

def head (t : Tree) (id : Nat) : Dump.Head where
  kind := t.kind id
  range := some ((t.range id).start, (t.range id).stop)
  heredoc := ((t.node? id).bind (·.heredoc)).map fun body => (body.start, body.stop)

theorem mem_childIds_of_mem_children {t : Tree} {id c : Nat} (h : Child.node c ∈ t.children id) :
    c ∈ t.childIds id := by
  unfold children at h
  unfold childIds Node.childIds
  cases hn : t.node? id with
  | none => simp [hn] at h
  | some n =>
    simp only [hn, Option.map_some, Option.getD_some] at h ⊢
    exact List.mem_filterMap.mpr ⟨_, h, rfl⟩

def term (t : Tree) (id : Nat) : Dump.Term :=
  .node (t.head id) ((t.children id).attach.map fun
    | ⟨.literal l, _⟩ => .literal l
    | ⟨.node c, _⟩ => t.term c)
termination_by id
decreasing_by exact t.childIds_lt (mem_childIds_of_mem_children ‹_›)

def slotTerm (t : Tree) : Child → Dump.Term
  | .literal l => .literal l
  | .node c => t.term c

theorem term_eq (t : Tree) (id : Nat) :
    t.term id = .node (t.head id) ((t.children id).map t.slotTerm) := by
  rw [term]
  congr 1
  refine Eq.trans (List.map_congr_left ?_) List.attach_map_val
  rintro ⟨slot, hslot⟩ -
  cases slot <;> rfl

/-- Everything below a node and the node itself, children before parents and siblings in order. -/
def postorder (t : Tree) (id : Nat) : List Nat :=
  (t.childIds id).attach.flatMap (fun ⟨c, _⟩ => postorder t c) ++ [id]
termination_by id
decreasing_by exact t.childIds_lt ‹_›

theorem postorder_eq (t : Tree) (id : Nat) :
    t.postorder id = (t.childIds id).flatMap t.postorder ++ [id] := by
  rw [postorder]
  simp [List.flatMap_subtype]

end Tree

namespace Dump

/-! ## Terms -/

mutual

/-- What stands before the children of a node, for every node of a term. -/
def Term.heads : Term → List Head
  | .literal _ => []
  | .node head children => head :: headsAll children

def headsAll : List Term → List Head
  | [] => []
  | term :: terms => term.heads ++ headsAll terms

end

mutual

/-- A term with the empty span at the start for every place that is missing. -/
def Term.located : Term → Term
  | .literal l => .literal l
  | .node head children =>
    .node { head with range := some (head.range.getD (0, 0)) } (locatedAll children)

def locatedAll : List Term → List Term
  | [] => []
  | term :: terms => term.located :: locatedAll terms

end

mutual

def Term.count : Term → Nat
  | .literal _ => 0
  | .node _ children => countAll children + 1

def countAll : List Term → Nat
  | [] => 0
  | term :: terms => term.count + countAll terms

end

/-- The bounds come in order, lie in the source and cut no character. -/
def BoundsFit (source : String) (bounds : Bounds) : Prop :=
  bounds.1 ≤ bounds.2 ∧ bounds.2 ≤ Text.byteLength source.toList ∧
    Text.isBoundary source.toList bounds.1 = true ∧ Text.isBoundary source.toList bounds.2 = true

/-- The bounds of a node and of its heredoc body, as far as they are given, fit. -/
structure Head.Fits (head : Head) (source : String) : Prop where
  range : ∀ bounds ∈ head.range, BoundsFit source bounds
  heredoc : ∀ bounds ∈ head.heredoc, BoundsFit source bounds

theorem span_of_fits {source : String} {bounds : Bounds} (h : BoundsFit source bounds) :
    ∃ s : Span, span bounds = .ok s ∧ s.Fits source := by
  obtain ⟨horder, hstop, hstart, hend⟩ := h
  refine ⟨⟨bounds.1, bounds.2, horder⟩, ?_, ⟨hstop, hstart, hend⟩⟩
  simp [span, Span.ofBounds?, horder]

theorem bounds_of_span {bounds : Bounds} {s : Span} (h : span bounds = .ok s) :
    (s.start, s.stop) = bounds := by
  unfold span Span.ofBounds? at h
  split at h
  · rename_i s' hs
    split at hs
    · cases hs
      cases h
      rfl
    · cases hs
  · cases h

namespace Head

theorem place_of_fits {head : Head} {source : String} (h : head.Fits source) :
    ∃ s : Span, head.place = .ok s ∧ s.Fits source := by
  unfold place
  cases hr : head.range with
  | none =>
    exact ⟨Span.point 0, rfl, Nat.zero_le _, Text.isBoundary_zero _, Text.isBoundary_zero _⟩
  | some bounds => exact span_of_fits (h.range bounds hr)

theorem bounds_of_place {head : Head} {s : Span} (h : head.place = .ok s) :
    (s.start, s.stop) = head.range.getD (0, 0) := by
  unfold place at h
  cases hr : head.range with
  | none =>
    rw [hr] at h
    cases h
    rfl
  | some bounds =>
    rw [hr] at h
    exact bounds_of_span h

theorem body_of_fits {head : Head} {source : String} (h : head.Fits source) :
    ∃ body : Option Span, head.body = .ok body ∧ ∀ s, body = some s → s.Fits source := by
  unfold body
  cases hr : head.heredoc with
  | none => exact ⟨none, rfl, by simp⟩
  | some bounds =>
    obtain ⟨s, hspan, hfits⟩ := span_of_fits (h.heredoc bounds hr)
    refine ⟨some s, ?_, ?_⟩
    · simp only [hspan]
      rfl
    · rintro s' ⟨⟩
      exact hfits

theorem bounds_of_body {head : Head} {body : Option Span} (h : head.body = .ok body) :
    (body.map fun s => (s.start, s.stop)) = head.heredoc := by
  unfold Head.body at h
  cases hr : head.heredoc with
  | none =>
    rw [hr] at h
    cases h
    rfl
  | some bounds =>
    rw [hr] at h
    cases hspan : span bounds with
    | error e =>
      simp only [hspan] at h
      cases h
    | ok s =>
      simp only [hspan] at h
      cases h
      rw [Option.map_some, bounds_of_span hspan]

end Head

/-! ## Terms in an array of nodes -/

/-- The slot of a term whose nodes are added from an index on. -/
def slotAt (start : Nat) : Term → Child
  | .literal l => .literal l
  | .node _ children => .node (start + countAll children)

def slotsAt (start : Nat) : List Term → List Child
  | [] => []
  | term :: terms => slotAt start term :: slotsAt (start + term.count) terms

mutual

/-- From an index on stand the nodes of a term: those of the children one after the other, then the
node that holds them. -/
def Holds (nodes : Array Node) (start : Nat) : Term → Prop
  | .literal _ => True
  | .node head children =>
    HoldsAll nodes start children ∧
      ∃ n, nodes[start + countAll children]? = some n ∧ n.kind = head.kind ∧
        head.place = .ok n.range ∧ head.body = .ok n.heredoc ∧
        n.children = slotsAt start children

def HoldsAll (nodes : Array Node) (start : Nat) : List Term → Prop
  | [] => True
  | term :: terms => Holds nodes start term ∧ HoldsAll nodes (start + term.count) terms

end

theorem countAll_append (xs ys : List Term) :
    countAll (xs ++ ys) = countAll xs + countAll ys := by
  induction xs with
  | nil => simp [countAll]
  | cons x xs ih => simp [countAll, ih, Nat.add_assoc]

theorem slotsAt_append (start : Nat) (xs ys : List Term) :
    slotsAt start (xs ++ ys) = slotsAt start xs ++ slotsAt (start + countAll xs) ys := by
  induction xs generalizing start with
  | nil => simp [slotsAt, countAll]
  | cons x xs ih => simp [slotsAt, countAll, ih, Nat.add_assoc]

theorem holdsAll_append {nodes : Array Node} {start : Nat} {xs ys : List Term}
    (hxs : HoldsAll nodes start xs) (hys : HoldsAll nodes (start + countAll xs) ys) :
    HoldsAll nodes start (xs ++ ys) := by
  induction xs generalizing start with
  | nil => simpa [countAll] using hys
  | cons x xs ih =>
    rw [HoldsAll] at hxs
    rw [countAll, ← Nat.add_assoc] at hys
    rw [List.cons_append, HoldsAll]
    exact ⟨hxs.1, ih hxs.2 hys⟩

/-- The nodes that stand in the slots of terms are among those of the terms. -/
theorem mem_slotsAt {start : Nat} {terms : List Term} {id : Nat}
    (h : id ∈ (slotsAt start terms).filterMap Child.node?) :
    start ≤ id ∧ id < start + countAll terms := by
  induction terms generalizing start with
  | nil => simp [slotsAt] at h
  | cons term terms ih =>
    rw [slotsAt, List.filterMap_cons] at h
    cases term with
    | literal l =>
      have := ih h
      simp only [Term.count, countAll] at this ⊢
      omega
    | node head children =>
      rcases List.mem_cons.mp h with rfl | h
      · simp only [Term.count, countAll]
        omega
      · have := ih h
        simp only [Term.count, countAll] at this ⊢
        omega

/-- All nodes are still there, with the same or other parents. -/
def Kept (nodes nodes' : Array Node) : Prop :=
  ∀ {i : Nat} {n : Node}, nodes[i]? = some n → ∃ p, nodes'[i]? = some { n with parent := p }

mutual

theorem Holds.mono {nodes nodes' : Array Node} (hkept : Kept nodes nodes') {start : Nat} :
    (term : Term) → Holds nodes start term → Holds nodes' start term
  | .literal l, _ => by
    rw [Holds]
    trivial
  | .node head children, h => by
    rw [Holds] at h ⊢
    obtain ⟨hchildren, n, hn, hkind, hplace, hbody, hslots⟩ := h
    obtain ⟨p, hp⟩ := hkept hn
    exact ⟨HoldsAll.mono hkept children hchildren, _, hp, hkind, hplace, hbody, hslots⟩

theorem HoldsAll.mono {nodes nodes' : Array Node} (hkept : Kept nodes nodes') {start : Nat} :
    (terms : List Term) → HoldsAll nodes start terms → HoldsAll nodes' start terms
  | [], _ => by
    rw [HoldsAll]
    trivial
  | term :: terms, h => by
    rw [HoldsAll] at h ⊢
    exact ⟨Holds.mono hkept term h.1, HoldsAll.mono hkept terms h.2⟩

end

/-! ## Building -/

/-- What adding terms does to a builder: their nodes stand behind those that were there, and of the
new ones those in the slots have no parent yet. -/
structure Grown (b b' : Builder) (terms : List Term) : Prop where
  path : b'.path = b.path
  source : b'.source = b.source
  size : b'.nodes.size = b.nodes.size + countAll terms
  old : ∀ i < b.nodes.size, b'.nodes[i]? = b.nodes[i]?
  holds : HoldsAll b'.nodes b.nodes.size terms
  orphans : ∀ {i : Nat} {n : Node}, b.nodes.size ≤ i → b'.nodes[i]? = some n →
    (n.parent = none ↔ i ∈ (slotsAt b.nodes.size terms).filterMap Child.node?)

theorem Grown.kept {b b' : Builder} {terms : List Term} (h : Grown b b' terms) :
    Kept b.nodes b'.nodes := by
  intro i n hn
  refine ⟨n.parent, ?_⟩
  rw [h.old i (Array.getElem?_eq_some_iff.mp hn).1, hn]

theorem grown_none (b : Builder) {terms : List Term} (hcount : countAll terms = 0)
    (hholds : HoldsAll b.nodes b.nodes.size terms) : Grown b b terms := by
  refine ⟨rfl, rfl, by omega, fun _ _ => rfl, hholds, ?_⟩
  intro i n hi hn
  have := (Array.getElem?_eq_some_iff.mp hn).1
  omega

theorem Grown.append {b b' b'' : Builder} {xs ys : List Term} (hxs : Grown b b' xs)
    (hys : Grown b' b'' ys) : Grown b b'' (xs ++ ys) := by
  have hsize := hxs.size
  have hsize' := hys.size
  refine ⟨hys.path.trans hxs.path, hys.source.trans hxs.source, ?_, ?_, ?_, ?_⟩
  · rw [countAll_append]
    omega
  · intro i hi
    rw [hys.old i (by omega), hxs.old i hi]
  · refine holdsAll_append (HoldsAll.mono hys.kept xs hxs.holds) ?_
    rw [← hsize]
    exact hys.holds
  · intro i n hi hn
    rw [slotsAt_append, List.filterMap_append, List.mem_append, ← hsize]
    by_cases hlt : i < b'.nodes.size
    · rw [hys.old i hlt] at hn
      rw [hxs.orphans hi hn]
      refine ⟨Or.inl, fun h => h.resolve_right fun hmem => ?_⟩
      have := mem_slotsAt hmem
      omega
    · rw [hys.orphans (by omega) hn]
      refine ⟨Or.inr, fun h => h.resolve_left fun hmem => ?_⟩
      have := mem_slotsAt hmem
      omega

/-- A node that is pushed above the children that were added last. -/
theorem Grown.push {b b' : Builder} {head : Head} {children : List Term} {range : Span}
    {heredoc : Option Span} (h : Grown b b' children) (hplace : head.place = .ok range)
    (hbody : head.body = .ok heredoc)
    (hfits : (⟨head.kind, range, heredoc, slotsAt b.nodes.size children, none⟩ : Node).Fits
      b'.source) :
    ∃ b'', b'.push head.kind range heredoc (slotsAt b.nodes.size children) =
        .ok (b.nodes.size + countAll children, b'') ∧
      Grown b b'' [.node head children] := by
  have hsize := h.size
  have horphans : ∀ c ∈ (slotsAt b.nodes.size children).filterMap Child.node?,
      ∃ n, b'.nodes[c]? = some n ∧ n.parent = none := by
    intro c hc
    have hbound := mem_slotsAt hc
    obtain ⟨n, hn⟩ : ∃ n, b'.nodes[c]? = some n :=
      ⟨_, Array.getElem?_eq_getElem (by omega)⟩
    exact ⟨n, hn, (h.orphans hbound.1 hn).mpr hc⟩
  obtain ⟨b'', hpush⟩ := Builder.exists_push hfits horphans
  obtain ⟨-, -, -, hpath, hsource, hnodes⟩ := (Builder.push_eq_ok_iff ..).mp hpush
  have hget : ∀ {i : Nat} {n : Node}, b''.nodes[i]? = some n ↔
      i = b'.nodes.size ∧
        n = ⟨head.kind, range, heredoc, slotsAt b.nodes.size children, none⟩ ∨
      i < b'.nodes.size ∧ ∃ m, b'.nodes[i]? = some m ∧
        n = if i ∈ (slotsAt b.nodes.size children).filterMap Child.node? then
          { m with parent := some b'.nodes.size } else m := by
    intro i n
    rw [hnodes]
    exact @getElem?_adopt_push b'.nodes
      ⟨head.kind, range, heredoc, slotsAt b.nodes.size children, none⟩ i n
  have hkept : Kept b'.nodes b''.nodes := by
    intro i n hn
    have hlt := (Array.getElem?_eq_some_iff.mp hn).1
    by_cases hmem : i ∈ (slotsAt b.nodes.size children).filterMap Child.node?
    · exact ⟨some b'.nodes.size, hget.mpr (Or.inr ⟨hlt, n, hn, by rw [if_pos hmem]⟩)⟩
    · exact ⟨n.parent, hget.mpr (Or.inr ⟨hlt, n, hn, by rw [if_neg hmem]⟩)⟩
  refine ⟨b'', hsize ▸ hpush, hpath.trans h.path, hsource.trans h.source, ?_, ?_, ?_, ?_⟩
  · rw [hnodes, Array.size_push, size_adopt, hsize]
    simp [countAll, Term.count, Nat.add_assoc]
  · intro i hi
    obtain ⟨n, hn⟩ : ∃ n, b'.nodes[i]? = some n :=
      ⟨_, Array.getElem?_eq_getElem (by omega)⟩
    rw [← h.old i hi, hn]
    refine hget.mpr (Or.inr ⟨by omega, n, hn, ?_⟩)
    rw [if_neg]
    intro hmem
    have := mem_slotsAt hmem
    omega
  · rw [HoldsAll, HoldsAll, Holds]
    refine ⟨⟨HoldsAll.mono hkept children h.holds, _, hget.mpr (Or.inl ⟨hsize.symm, rfl⟩), rfl,
      hplace, hbody, rfl⟩, trivial⟩
  · intro i n hi hn
    have hroot : (slotsAt b.nodes.size [.node head children]).filterMap Child.node? =
        [b'.nodes.size] := by
      rw [hsize]
      rfl
    rw [hroot, List.mem_singleton]
    rcases hget.mp hn with ⟨rfl, rfl⟩ | ⟨hlt, m, hm, rfl⟩
    · simp
    · have hne : i ≠ b'.nodes.size := by omega
      simp only [hne, iff_false]
      split
      · simp
      · rename_i hmem
        rw [h.orphans hi hm]
        exact hmem

private theorem addNode_grown_of {b : Builder} {head : Head} {children : List Term}
    (hfits : head.Fits b.source)
    (hchildren : ∃ b', addChildren b children = .ok (slotsAt b.nodes.size children, b') ∧
      Grown b b' children) :
    ∃ b', addNode b head children = .ok (b.nodes.size + countAll children, b') ∧
      Grown b b' [.node head children] := by
  obtain ⟨b', hadd, hgrown⟩ := hchildren
  obtain ⟨range, hplace, hrange⟩ := Head.place_of_fits hfits
  obtain ⟨heredoc, hbody, hheredoc⟩ := Head.body_of_fits hfits
  rw [← hgrown.source] at hrange hheredoc
  obtain ⟨b'', hpush, hgrown'⟩ := hgrown.push hplace hbody ⟨hrange, hheredoc⟩
  refine ⟨b'', ?_, hgrown'⟩
  rw [addNode, hplace, hbody]
  simp only [bind, Except.bind, hadd, hpush]

mutual

theorem addTerm_grown (b : Builder) :
    (term : Term) → (∀ head ∈ term.heads, head.Fits b.source) →
      ∃ b', addTerm b term = .ok (slotAt b.nodes.size term, b') ∧ Grown b b' [term]
  | .literal l, _ => by
    refine ⟨b, by rw [addTerm]; rfl, grown_none b rfl ?_⟩
    rw [HoldsAll, HoldsAll, Holds]
    exact ⟨trivial, trivial⟩
  | .node head children, h => by
    rw [Term.heads] at h
    obtain ⟨b', hadd, hgrown⟩ := addNode_grown_of (h head (by simp))
      (addChildren_grown b children fun k hk => h k (by simp [hk]))
    refine ⟨b', ?_, hgrown⟩
    rw [addTerm, hadd]
    rfl

/-- Adding terms whose bounds fit succeeds and puts their nodes behind those that are there. -/
theorem addChildren_grown (b : Builder) :
    (terms : List Term) → (∀ head ∈ headsAll terms, head.Fits b.source) →
      ∃ b', addChildren b terms = .ok (slotsAt b.nodes.size terms, b') ∧ Grown b b' terms
  | [], _ => by
    refine ⟨b, by rw [addChildren]; rfl, grown_none b rfl ?_⟩
    rw [HoldsAll]
    trivial
  | term :: terms, h => by
    rw [headsAll] at h
    obtain ⟨b', hadd, hgrown⟩ := addTerm_grown b term fun k hk => h k (by simp [hk])
    obtain ⟨b'', hadd', hgrown'⟩ := addChildren_grown b' terms fun k hk => by
      rw [hgrown.source]
      exact h k (by simp [hk])
    refine ⟨b'', ?_, hgrown.append hgrown'⟩
    have hsize : b'.nodes.size = b.nodes.size + term.count := by
      rw [hgrown.size, countAll, countAll, Nat.add_zero]
    rw [addChildren, hadd]
    simp only [bind, Except.bind, hadd', hsize]
    rfl

end

theorem addNode_grown (b : Builder) (head : Head) (children : List Term)
    (h : ∀ k ∈ head :: headsAll children, k.Fits b.source) :
    ∃ b', addNode b head children = .ok (b.nodes.size + countAll children, b') ∧
      Grown b b' [.node head children] :=
  addNode_grown_of (h head (by simp))
    (addChildren_grown b children fun k hk => h k (by simp [hk]))

/-! ## The tree of a dump -/

mutual

/-- A term that the nodes of a tree hold is what unfolds from its slot, and its nodes stand in
post-order. -/
theorem Holds.unfolds {t : Tree} {start : Nat} :
    (term : Term) → Holds t.nodes start term →
      t.slotTerm (slotAt start term) = term.located ∧
        (slotAt start term).node?.toList.flatMap t.postorder = List.range' start term.count
  | .literal l, _ => ⟨rfl, rfl⟩
  | .node head children, h => by
    rw [Holds] at h
    obtain ⟨hchildren, n, hn, hkind, hplace, hbody, hslots⟩ := h
    obtain ⟨hterms, horder⟩ := HoldsAll.unfolds children hchildren
    have hnode : t.node? (start + countAll children) = some n := hn
    constructor
    · have hhead : t.head (start + countAll children) =
          { head with range := some (head.range.getD (0, 0)) } := by
        rw [← Head.bounds_of_place hplace]
        simp [Tree.head, Tree.kind, Tree.range, hnode, hkind, Head.bounds_of_body hbody]
      rw [slotAt, Tree.slotTerm, Tree.term_eq, hhead, Term.located, ← hterms]
      simp [Tree.children, hnode, hslots]
    · have hids : t.childIds (start + countAll children) =
          (slotsAt start children).filterMap Child.node? := by
        simp [Tree.childIds, Node.childIds, hnode, hslots]
      rw [slotAt, Child.node?, Option.toList_some, List.flatMap_singleton, Tree.postorder_eq, hids,
        horder, Term.count, List.range'_1_concat]

theorem HoldsAll.unfolds {t : Tree} {start : Nat} :
    (terms : List Term) → HoldsAll t.nodes start terms →
      (slotsAt start terms).map t.slotTerm = locatedAll terms ∧
        ((slotsAt start terms).filterMap Child.node?).flatMap t.postorder =
          List.range' start (countAll terms)
  | [], _ => ⟨rfl, rfl⟩
  | term :: terms, h => by
    rw [HoldsAll] at h
    obtain ⟨hterm, horder⟩ := Holds.unfolds term h.1
    obtain ⟨hterms, horders⟩ := HoldsAll.unfolds terms h.2
    refine ⟨by rw [slotsAt, List.map_cons, hterm, hterms, locatedAll], ?_⟩
    have hcons : (slotsAt start (term :: terms)).filterMap Child.node? =
        (slotAt start term).node?.toList ++
          (slotsAt (start + term.count) terms).filterMap Child.node? := by
      rw [slotsAt, List.filterMap_cons]
      cases (slotAt start term).node? <;> rfl
    rw [hcons, List.flatMap_append, horder, horders, countAll, List.range'_append_1]

end

end Dump

namespace Tree

open Dump

/-- The builder in which a whole node stands ends in a tree whose root is that node. -/
theorem finish_of_grown {b : Builder} {path source : String} {head : Head} {children : List Term}
    (h : Grown (Builder.start path source) b [.node head children]) :
    ∃ t, b.finish (countAll children) = .ok t ∧ t.path = path ∧ t.source = source ∧
      t.nodes = b.nodes ∧ t.root = countAll children ∧ t.root + 1 = t.nodes.size := by
  have hroot : (slotsAt 0 [.node head children]).filterMap Child.node? = [countAll children] := by
    simp [slotsAt, slotAt, Child.node?]
  have horphans : ∀ {i : Nat} {n : Node}, b.nodes[i]? = some n →
      (n.parent = none ↔ i = countAll children) := by
    intro i n hn
    rw [h.orphans (Nat.zero_le i) hn, ← List.mem_singleton]
    exact Iff.of_eq (congrArg _ hroot)
  have hsize : b.nodes.size = countAll children + 1 := by
    rw [h.size]
    simp [Builder.start, countAll, Term.count]
  refine ⟨⟨b.path, b.source, b.nodes, countAll children, b.linked⟩, ?_, h.path, h.source, rfl, rfl,
    hsize.symm⟩
  rw [Builder.finish_eq_ok_iff]
  refine ⟨?_, ?_, rfl⟩
  · obtain ⟨n, hn⟩ : ∃ n, b.nodes[countAll children]? = some n :=
      ⟨_, Array.getElem?_eq_getElem (by omega)⟩
    exact ⟨n, hn, (horphans hn).mpr rfl⟩
  · intro i n hn hi
    exact Option.ne_none_iff_exists'.mp fun hnone => hi ((horphans hn).mp hnone)

/-- The tree of what is read, when all its bounds fit the source. -/
theorem ofDump_of_fits {path source dump : String} {head : Head} {children : List Term}
    (hguard : guardNesting dump = .ok ()) (hread : Dump.read dump = .ok (head, children))
    (hfits : ∀ k ∈ (Term.node head children).heads, k.Fits source) :
    ∃ t, ofDump path source dump = .ok t ∧ t.path = path ∧ t.source = source ∧
      t.term t.root = (Term.node head children).located ∧
      t.postorder t.root = List.range t.nodes.size ∧ t.root + 1 = t.nodes.size := by
  rw [Term.heads] at hfits
  obtain ⟨b, hadd, hgrown⟩ := addNode_grown (Builder.start path source) head children hfits
  obtain ⟨t, hfinish, hpath, hsource, hnodes, hroot, hsize⟩ := finish_of_grown hgrown
  have hholds : Holds t.nodes 0 (.node head children) := by
    have hall := hgrown.holds
    rw [HoldsAll] at hall
    rw [hnodes]
    exact hall.1
  obtain ⟨hterm, horder⟩ := Holds.unfolds _ hholds
  refine ⟨t, ?_, hpath, hsource, ?_, ?_, hsize⟩
  · have hstart : (Builder.start path source).nodes.size + countAll children =
        countAll children := Nat.zero_add _
    rw [hstart] at hadd
    simp only [ofDump, hguard, hread, bind, Except.bind, hadd, hfinish]
  · simpa [slotAt, slotTerm, hroot] using hterm
  · rw [← hsize, hroot, List.range_eq_range']
    simpa [slotAt, Child.node?, Term.count] using horder

/-- A dump in any written form is refused when its tree nests too deep. Otherwise, when the bounds
fit the source, it gives a tree that unfolds to what is written, its nodes in post-order. -/
theorem ofDump_written {head : Head} {children : List Term} {dump : String}
    (h : WrittenDump head children dump.toList) (path source : String) :
    ((Term.node head children).depth ≤ 200 →
      (∀ k ∈ (Term.node head children).heads, k.Fits source) →
        ∃ t, ofDump path source dump = .ok t ∧ t.path = path ∧ t.source = source ∧
          t.term t.root = (Term.node head children).located ∧
          t.postorder t.root = List.range t.nodes.size ∧ t.root + 1 = t.nodes.size) ∧
    (200 < (Term.node head children).depth →
      ∃ fault, ofDump path source dump = .error (.malformed fault)) := by
  obtain ⟨hpass, hstop⟩ := h.guardNesting
  rw [Term.depth]
  constructor
  · intro hdepth hfits
    exact ofDump_of_fits (hpass hdepth) h.read hfits
  · intro hdepth
    obtain ⟨fault, hguard⟩ := hstop hdepth
    exact ⟨fault, by simp only [ofDump, hguard, bind, Except.bind]⟩

/-- A call in one of its written forms, and a dump with a level too many. -/
theorem ofDump_written_call :
    (∃ t, ofDump "a.rb" "p \"é)\""
          "( send@0..7 nil :p\n (str @2..7 ~3..6 \"\\u00e9)\") :\"(\" -1 )" = .ok t ∧
        t.term t.root = .node ⟨"send", some (0, 7), none⟩ [.literal .nil, .literal (.sym "p"),
          .node ⟨"str", some (2, 7), some (3, 6)⟩ [.literal (.str "é)")], .literal (.sym "("),
          .literal (.int (-1))] ∧
        t.postorder t.root = List.range t.nodes.size ∧ t.root + 1 = t.nodes.size) ∧
      ∃ children dump fault, WrittenDump ⟨"begin", none, none⟩ children dump.toList ∧
        depthAll children = 200 ∧ ofDump "a.rb" "" dump = .error (.malformed fault) := by
  have hnone : Blanks [] := by simp [Blanks]
  have hspace : Blanks [' '] := by simp [Blanks, Json.isBlank]
  have hline : Blanks ['\n', ' '] := by simp [Blanks, Json.isBlank]
  constructor
  · have hmarked : ∀ (mark : Char) {ws : List Char} {a b : Nat}, Blanks ws → a < 10 → b < 10 →
        Marked mark (some (a, b))
          (ws ++ mark :: ([a.digitChar] ++ '.' :: '.' :: [b.digitChar])) := by
      intro mark ws a b hws ha hb
      refine .given hws (.digit a ha) ?_ (.digit b hb) ?_ <;> (unfold Word.bound64; omega)
    have hsend : WrittenHead ⟨"send", some (0, 7), none⟩ _ :=
      .mk hspace (by simp) (by simp) (hmarked '@' hnone (by decide) (by decide)) .missing
    have hstr : WrittenHead ⟨"str", some (2, 7), some (3, 6)⟩ _ :=
      .mk hnone (by simp) (by simp) (hmarked '@' hspace (by decide) (by decide))
        (hmarked '~' hspace (by decide) (by decide))
    have htext : Quoted ['\\', 'u', '0', '0', 'e', '9', ')'] "é)".toList :=
      .unit (u := 0xe9) (by decide) (by decide) (.plain (by decide) (by decide) (by decide) .nil)
    have hname : Quoted ['('] "(".toList := .plain (by decide) (by decide) (by decide) .nil
    have hbare : ∀ c ∈ "p".toList, BareChar c := by
      simp only [String.reduceToList, List.mem_singleton]
      rintro c rfl
      exact ⟨by decide, by decide, by decide, by decide⟩
    have hdump : WrittenDump ⟨"send", some (0, 7), none⟩ [.literal .nil, .literal (.sym "p"),
        .node ⟨"str", some (2, 7), some (3, 6)⟩ [.literal (.str "é)")], .literal (.sym "("),
        .literal (.int (-1))]
        "( send@0..7 nil :p\n (str @2..7 ~3..6 \"\\u00e9)\") :\"(\" -1 )".toList :=
      .mk hnone hsend
        (.literal hspace (by decide) .nil
          (.literal hspace (by decide) (.bare (by decide) hbare)
            (.node hline (by decide) hstr (.literal hspace (by decide) (.str htext) .nil) hnone
              (.literal hspace (by decide) (.quoted hname)
                (.literal hspace (by decide) (.negative (.digit 1 (by decide)) (by decide))
                  .nil)))))
        hspace hnone
    have hfits : ∀ bounds ∈ [(0, 7), (2, 7), (3, 6)], BoundsFit "p \"é)\"" bounds := by
      simp only [List.mem_cons, List.not_mem_nil, or_false]
      rintro bounds (rfl | rfl | rfl) <;> exact ⟨by decide, by decide, by decide, by decide⟩
    have hheads : ∀ k ∈ [(⟨"send", some (0, 7), none⟩ : Head),
        ⟨"str", some (2, 7), some (3, 6)⟩], k.Fits "p \"é)\"" := by
      simp only [List.mem_cons, List.not_mem_nil, or_false]
      rintro k (rfl | rfl)
      · exact ⟨by simpa using hfits (0, 7) (by simp), by simp⟩
      · exact ⟨by simpa using hfits (2, 7) (by simp), by simpa using hfits (3, 6) (by simp)⟩
    obtain ⟨t, hread, -, -, hterm, horder⟩ :=
      (ofDump_written hdump "a.rb" "p \"é)\"").1 (by decide) hheads
    exact ⟨t, hread, hterm, horder⟩
  · obtain ⟨children, inner, hchildren, hdepth⟩ := exists_writtenTerms 200
    have hdump : WrittenDump ⟨"begin", none, none⟩ children
        (String.ofList ([] ++ parenthesize ("begin".toList) inner [] ++ [])).toList := by
      rw [String.toList_ofList]
      exact .mk hnone (.mk hnone (by simp) (by simp) .missing .missing) hchildren hnone hnone
    have hdeep : 200 < (Term.node ⟨"begin", none, none⟩ children).depth := by
      rw [Term.depth, hdepth]
      decide
    obtain ⟨fault, hfault⟩ := (ofDump_written hdump "a.rb" "").2 hdeep
    exact ⟨children, _, fault, hdump, hdepth, hfault⟩

end Tree
end SpecUpgrade
