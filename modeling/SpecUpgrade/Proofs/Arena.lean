import SpecUpgrade.Dump
import SpecUpgrade.Proofs.Submission
import SpecUpgrade.Scope.Context

/-!
What holds of every tree that the builder makes. Every range fits the source, and the links up and
the links down say the same: a node names another as its parent exactly when it is one of its
children.
-/

namespace SpecUpgrade

theorem Builder.checkRange_eq_ok_iff (source : String) (range : Span) :
    Builder.checkRange source range = .ok () ↔ range.Fits source := by
  unfold Builder.checkRange
  simp only
  constructor
  · intro h
    split at h
    · rename_i hc
      simp only [Bool.and_eq_true, decide_eq_true_eq] at hc
      exact ⟨hc.1.1, hc.1.2, hc.2⟩
    · cases h
  · intro h
    simp [h.stop_le, h.start_boundary, h.stop_boundary]

/-- The node's range fits the source, and so does its heredoc body if it has one. -/
structure Node.Fits (n : Node) (source : String) : Prop where
  range : n.range.Fits source
  heredoc : ∀ body, n.heredoc = some body → body.Fits source

/-- Every node fits, and the links up and down agree. -/
structure Agreed (source : String) (nodes : Array Node) : Prop where
  fits : ∀ {i : Nat} {n : Node}, nodes[i]? = some n → n.Fits source
  parent_of_child : ∀ {p c : Nat} {n : Node}, nodes[p]? = some n → c ∈ n.childIds →
    ∃ m, nodes[c]? = some m ∧ m.parent = some p
  child_of_parent : ∀ {p c : Nat} {m : Node}, nodes[c]? = some m → m.parent = some p →
    ∃ n, nodes[p]? = some n ∧ c ∈ n.childIds

theorem agreed_empty (source : String) : Agreed source #[] :=
  ⟨fun h => by simp at h, fun h => by simp at h, fun h => by simp at h⟩

/-! ## Adoption -/

theorem size_adopt (p : Nat) (ids : List Nat) (nodes : Array Node) :
    (adopt p ids nodes).size = nodes.size := by
  simp [adopt]

theorem getElem?_adopt (p : Nat) (ids : List Nat) (nodes : Array Node) (i : Nat) :
    (adopt p ids nodes)[i]? = nodes[i]?.map fun n =>
      if i ∈ ids then { n with parent := some p } else n := by
  simp [adopt]

/-- A node after a push: the new one, or an old one that may have been adopted. -/
theorem getElem?_adopt_push {nodes : Array Node} {node : Node} {i : Nat} {n : Node} :
    ((adopt nodes.size node.childIds nodes).push node)[i]? = some n ↔
      i = nodes.size ∧ n = node ∨
      i < nodes.size ∧ ∃ m, nodes[i]? = some m ∧
        n = if i ∈ node.childIds then { m with parent := some nodes.size } else m := by
  rw [Array.getElem?_push, size_adopt]
  by_cases hi : i = nodes.size
  · simp [hi, eq_comm]
  · rw [if_neg hi, getElem?_adopt, Option.map_eq_some_iff]
    constructor
    · rintro ⟨m, hm, rfl⟩
      exact Or.inr ⟨(Array.getElem?_eq_some_iff.mp hm).1, m, hm, rfl⟩
    · rintro (⟨h, -⟩ | ⟨-, m, hm, rfl⟩)
      · exact absurd h hi
      · exact ⟨m, hm, rfl⟩

/-- A push adopts only nodes that had no parent, so no older link is lost. -/
theorem agreed_adopt_push {source : String} {nodes : Array Node} (h : Agreed source nodes)
    {node : Node} (hfits : node.Fits source) (fresh : node.parent = none)
    (orphans : ∀ c ∈ node.childIds, ∃ m, nodes[c]? = some m ∧ m.parent = none) :
    Agreed source ((adopt nodes.size node.childIds nodes).push node) := by
  have hadopted : ∀ {i : Nat} {m : Node}, nodes[i]? = some m → i ∈ node.childIds →
      m.parent = none := by
    intro i m hm hi
    obtain ⟨m', hm', hnone⟩ := orphans i hi
    rw [hm] at hm'
    cases hm'
    exact hnone
  refine ⟨?_, ?_, ?_⟩
  · intro i n hn
    rcases getElem?_adopt_push.mp hn with ⟨-, rfl⟩ | ⟨-, m, hm, rfl⟩
    · exact hfits
    · have hm := h.fits hm
      split
      · exact ⟨hm.range, hm.heredoc⟩
      · exact hm
  · intro p c n hn hc
    rcases getElem?_adopt_push.mp hn with ⟨rfl, rfl⟩ | ⟨hp, m, hm, rfl⟩
    · obtain ⟨m, hm, -⟩ := orphans c hc
      have hlt := (Array.getElem?_eq_some_iff.mp hm).1
      refine ⟨_, getElem?_adopt_push.mpr (Or.inr ⟨hlt, m, hm, rfl⟩), ?_⟩
      rw [if_pos hc]
    · have hc' : c ∈ m.childIds := by
        split at hc <;> exact hc
      obtain ⟨k, hk, hparent⟩ := h.parent_of_child hm hc'
      have hold : c ∉ node.childIds := by
        intro hin
        rw [hadopted hk hin] at hparent
        cases hparent
      refine ⟨k, getElem?_adopt_push.mpr (Or.inr ⟨(Array.getElem?_eq_some_iff.mp hk).1, k, hk, ?_⟩),
        hparent⟩
      rw [if_neg hold]
  · intro p c m hm hparent
    rcases getElem?_adopt_push.mp hm with ⟨-, rfl⟩ | ⟨hc, k, hk, rfl⟩
    · rw [fresh] at hparent
      cases hparent
    · by_cases hin : c ∈ node.childIds
      · rw [if_pos hin] at hparent
        cases hparent
        exact ⟨node, getElem?_adopt_push.mpr (Or.inl ⟨rfl, rfl⟩), hin⟩
      · rw [if_neg hin] at hparent
        obtain ⟨n, hn, hmem⟩ := h.child_of_parent hk hparent
        refine ⟨_, getElem?_adopt_push.mpr
          (Or.inr ⟨(Array.getElem?_eq_some_iff.mp hn).1, n, hn, rfl⟩), ?_⟩
        split <;> exact hmem

/-! ## Builders and their trees -/

namespace Builder

theorem childFault_eq_none_iff (nodes : Array Node) (ids : List Nat) :
    childFault nodes ids = none ↔ ∀ c ∈ ids, ∃ n, nodes[c]? = some n ∧ n.parent = none := by
  induction ids with
  | nil => simp [childFault]
  | cons c ids ih =>
    rw [childFault]
    cases hn : nodes[c]? with
    | none => simp [hn]
    | some n =>
      cases hp : n.parent with
      | none => simp [hn, hp, ih]
      | some p => simp [hn, hp]

private theorem ok_eq_ok_iff {b b' : Builder} {nodes : Array Node} {linked : Linked nodes}
    {id : Nat} :
    (Except.ok (b.nodes.size, ⟨b.path, b.source, nodes, linked⟩) : Except TreeError _) =
        .ok (id, b') ↔
      id = b.nodes.size ∧ b'.path = b.path ∧ b'.source = b.source ∧ b'.nodes = nodes := by
  cases b'
  simp only [Except.ok.injEq, Prod.mk.injEq, mk.injEq, eq_comm]

/-- A push succeeds exactly when the ranges fit and the children are there and free; it then adds
the node and sets the links of its children. -/
theorem push_eq_ok_iff (b : Builder) (kind : String) (range : Span) (heredoc : Option Span)
    (children : List Child) (id : Nat) (b' : Builder) :
    b.push kind range heredoc children = .ok (id, b') ↔
      (⟨kind, range, heredoc, children, none⟩ : Node).Fits b.source ∧
      (∀ c ∈ children.filterMap Child.node?, ∃ n, b.nodes[c]? = some n ∧ n.parent = none) ∧
      id = b.nodes.size ∧ b'.path = b.path ∧ b'.source = b.source ∧
      b'.nodes = (adopt b.nodes.size (children.filterMap Child.node?) b.nodes).push
        ⟨kind, range, heredoc, children, none⟩ := by
  have hfits : (⟨kind, range, heredoc, children, none⟩ : Node).Fits b.source ↔
      checkRange b.source range = .ok () ∧
        ∀ body, heredoc = some body → checkRange b.source body = .ok () := by
    simp only [checkRange_eq_ok_iff]
    exact ⟨fun h => ⟨h.range, h.heredoc⟩, fun h => ⟨h.1, h.2⟩⟩
  rw [hfits, ← childFault_eq_none_iff]
  unfold push
  simp only [bind, Except.bind]
  cases hr : checkRange b.source range with
  | error e => simp
  | ok u =>
    cases heredoc with
    | none =>
      simp only
      split
      · rename_i e hfault
        simp only [Node.childIds] at hfault
        simp [hfault]
      · rename_i hfault
        simp only [Node.childIds] at hfault
        rw [ok_eq_ok_iff]
        simp [hfault, Node.childIds]
    | some body =>
      cases hb : checkRange b.source body with
      | error e => simp [hb]
      | ok u =>
        simp only [hb]
        split
        · rename_i e hfault
          simp only [Node.childIds] at hfault
          simp [hfault]
        · rename_i hfault
          simp only [Node.childIds] at hfault
          rw [ok_eq_ok_iff]
          simp [hb, hfault, Node.childIds]

theorem exists_push {b : Builder} {kind : String} {range : Span} {heredoc : Option Span}
    {children : List Child}
    (hfits : (⟨kind, range, heredoc, children, none⟩ : Node).Fits b.source)
    (horphans : ∀ c ∈ children.filterMap Child.node?, ∃ n, b.nodes[c]? = some n ∧ n.parent = none) :
    ∃ b', b.push kind range heredoc children = .ok (b.nodes.size, b') := by
  have hknown : ∀ c ∈ children.filterMap Child.node?, c < b.nodes.size := by
    intro c hc
    obtain ⟨n, hn, -⟩ := horphans c hc
    exact (Array.getElem?_eq_some_iff.mp hn).1
  have hlinked := @linked_adopt_push b.nodes b.linked ⟨kind, range, heredoc, children, none⟩ rfl
    hknown
  exact ⟨⟨b.path, b.source, _, hlinked⟩,
    (push_eq_ok_iff ..).mpr ⟨hfits, horphans, rfl, rfl, rfl, rfl⟩⟩

/-- The builders that pushes make of an empty one. A push that fails leaves no builder, so the next
one starts from the same. -/
inductive Reached : Builder → Prop where
  | start (path source : String) : Reached (Builder.start path source)
  | push {b b' : Builder} {kind : String} {range : Span} {heredoc : Option Span}
      {children : List Child} {id : Nat} (hb : Reached b)
      (hpush : b.push kind range heredoc children = .ok (id, b')) : Reached b'

theorem Reached.agreed {b : Builder} (h : Reached b) : Agreed b.source b.nodes := by
  induction h with
  | start path source => exact agreed_empty source
  | push hb hpush ih =>
    obtain ⟨hfits, horphans, -, -, hsource, hnodes⟩ := (push_eq_ok_iff ..).mp hpush
    rw [hsource, hnodes]
    exact agreed_adopt_push ih hfits rfl horphans

theorem strays_eq_nil_iff (nodes : Array Node) (root : Nat) :
    strays nodes root = [] ↔
      ∀ i n, nodes[i]? = some n → i ≠ root → ∃ p, n.parent = some p := by
  rw [strays, List.filter_eq_nil_iff]
  constructor
  · intro h i n hn hi
    have hlt := (Array.getElem?_eq_some_iff.mp hn).1
    have := h i (List.mem_range.mpr hlt)
    simp only [hn, bne_iff_ne, ne_eq, hi, not_false_eq_true, Option.bind_some, Bool.and_eq_true,
      Option.isNone_iff_eq_none, true_and] at this
    exact Option.ne_none_iff_exists'.mp this
  · intro h i hi
    obtain ⟨n, hn⟩ : ∃ n, nodes[i]? = some n :=
      ⟨_, Array.getElem?_eq_some_iff.mpr ⟨List.mem_range.mp hi, rfl⟩⟩
    by_cases hroot : i = root
    · simp [hroot]
    · obtain ⟨p, hp⟩ := h i n hn hroot
      simp [hn, hp]

/-- The construction ends well exactly when the root is the only node without a parent. -/
theorem finish_eq_ok_iff (b : Builder) (root : Nat) (t : Tree) :
    b.finish root = .ok t ↔
      (∃ n, b.nodes[root]? = some n ∧ n.parent = none) ∧
      (∀ i n, b.nodes[i]? = some n → i ≠ root → ∃ p, n.parent = some p) ∧
      t = ⟨b.path, b.source, b.nodes, root, b.linked⟩ := by
  rw [← strays_eq_nil_iff]
  unfold finish
  cases hn : b.nodes[root]? with
  | none => simp
  | some n =>
    cases hp : n.parent with
    | some p => simp [hp]
    | none =>
      cases hs : strays b.nodes root with
      | nil => simp [hp, eq_comm]
      | cons i rest => simp [hp]

end Builder

namespace Tree

/-- The tree is what the builder makes of some nodes. -/
def Built (t : Tree) : Prop := ∃ b root, Builder.Reached b ∧ b.finish root = .ok t

theorem Built.agreed {t : Tree} (h : t.Built) : Agreed t.source t.nodes := by
  obtain ⟨b, root, hb, hfinish⟩ := h
  obtain ⟨-, -, rfl⟩ := (Builder.finish_eq_ok_iff ..).mp hfinish
  exact hb.agreed

theorem Built.parent?_root {t : Tree} (h : t.Built) : t.parent? t.root = none := by
  obtain ⟨b, root, -, hfinish⟩ := h
  obtain ⟨⟨n, hn, hp⟩, -, rfl⟩ := (Builder.finish_eq_ok_iff ..).mp hfinish
  simp [parent?, node?, hn, hp]

theorem mem_childIds_iff {t : Tree} {p c : Nat} :
    c ∈ t.childIds p ↔ ∃ n, t.nodes[p]? = some n ∧ c ∈ n.childIds := by
  unfold childIds node?
  cases t.nodes[p]? with
  | none => simp
  | some n => simp

theorem parent?_eq_some_iff {t : Tree} {p c : Nat} :
    t.parent? c = some p ↔ ∃ m, t.nodes[c]? = some m ∧ m.parent = some p := by
  unfold parent? node?
  cases t.nodes[c]? with
  | none => simp
  | some m => simp

/-- The links up and down agree. -/
theorem Built.mem_childIds_iff_parent? {t : Tree} (h : t.Built) {p c : Nat} :
    c ∈ t.childIds p ↔ t.parent? c = some p := by
  rw [mem_childIds_iff, parent?_eq_some_iff]
  constructor
  · rintro ⟨n, hn, hc⟩
    exact h.agreed.parent_of_child hn hc
  · rintro ⟨m, hm, hp⟩
    exact h.agreed.child_of_parent hm hp

theorem range_fits {t : Tree} (h : t.Built) (id : Nat) : (t.range id).Fits t.source := by
  unfold range node?
  cases hn : t.nodes[id]? with
  | none =>
    exact ⟨Nat.zero_le _, Text.isBoundary_zero _, Text.isBoundary_zero _⟩
  | some n => exact (h.agreed.fits hn).range

/-- The source between two offsets. -/
def excerpt (t : Tree) (start stop : Nat) : String :=
  String.ofList (Text.slice t.source.toList start stop)

private theorem foldl_max_stop_eq_some_iff {bodies : List Span} {first : Option Nat} {stop : Nat} :
    bodies.foldl (fun m s => some (max (m.getD 0) s.stop)) first = some stop ↔
      (first = some stop ∨ ∃ s ∈ bodies, s.stop = stop) ∧ (∀ n ∈ first, n ≤ stop) ∧
        ∀ s ∈ bodies, s.stop ≤ stop := by
  induction bodies generalizing first with
  | nil =>
    rw [List.foldl_nil]
    constructor
    · rintro rfl
      simp
    · rintro ⟨hfirst, -, -⟩
      simpa using hfirst
  | cons s bodies ih =>
    rw [List.foldl_cons, ih]
    cases first with
    | none =>
      simp only [Option.getD_none, Nat.zero_max, Option.some.injEq, Option.mem_def, forall_eq',
        reduceCtorEq, false_or, false_implies, implies_true, true_and, List.mem_cons,
        exists_eq_or_imp, forall_eq_or_imp]
    | some n =>
      simp only [Option.getD_some, Option.some.injEq, Option.mem_def, forall_eq', List.mem_cons,
        exists_eq_or_imp, forall_eq_or_imp, Nat.max_le]
      constructor
      · rintro ⟨hmax, ⟨hn, hs⟩, hbodies⟩
        refine ⟨?_, hn, hs, hbodies⟩
        rcases hmax with hmax | hmax
        · rcases Nat.le_total n s.stop with hle | hle
          · exact .inr (.inl (by omega))
          · exact .inl (by omega)
        · exact .inr (.inr hmax)
      · rintro ⟨hmax, hn, hs, hbodies⟩
        refine ⟨?_, ⟨hn, hs⟩, hbodies⟩
        rcases hmax with rfl | rfl | hmax
        · exact .inl (Nat.max_eq_left hs)
        · exact .inl (Nat.max_eq_right hn)
        · exact .inr hmax

def body? (t : Tree) (id : Nat) : Option Span := (t.node? id).bind (·.heredoc)

/-- The last heredoc of a subtree ends where one of its bodies ends, and none ends later. -/
theorem heredocEnd?_eq_some_iff {t : Tree} {id stop : Nat} :
    t.heredocEnd? id = some stop ↔
      (∃ n ∈ t.preorder id, ∃ body ∈ t.body? n, body.stop = stop) ∧
        ∀ n ∈ t.preorder id, ∀ body ∈ t.body? n, body.stop ≤ stop := by
  rw [heredocEnd?, foldl_max_stop_eq_some_iff]
  simp only [List.mem_filterMap, body?, Option.mem_def, reduceCtorEq, false_or, false_implies,
    implies_true, true_and]
  constructor
  · rintro ⟨⟨body, ⟨n, hn, hbody⟩, hstop⟩, hlast⟩
    exact ⟨⟨n, hn, body, hbody, hstop⟩, fun n hn body hbody => hlast body ⟨n, hn, hbody⟩⟩
  · rintro ⟨⟨n, hn, body, hbody, hstop⟩, hlast⟩
    exact ⟨⟨body, ⟨n, hn, hbody⟩, hstop⟩, fun body ⟨n, hn, hbody⟩ => hlast n hn body hbody⟩

theorem Built.heredocEnd?_boundary {t : Tree} (h : t.Built) {id stop : Nat}
    (hstop : t.heredocEnd? id = some stop) : Text.isBoundary t.source.toList stop = true := by
  obtain ⟨⟨n, -, body, hbody, rfl⟩, -⟩ := heredocEnd?_eq_some_iff.mp hstop
  obtain ⟨node, hnode, hheredoc⟩ := Option.bind_eq_some_iff.mp hbody
  exact ((h.agreed.fits hnode).heredoc body hheredoc).stop_boundary

/-! ## Trees that are read -/

theorem bind_eq_ok_iff {ε α β : Type} {x : Except ε α} {f : α → Except ε β} {r : β} :
    x >>= f = .ok r ↔ ∃ a, x = .ok a ∧ f a = .ok r := by
  cases x with
  | error e => simp [bind, Except.bind]
  | ok a => simp [bind, Except.bind]

theorem map_eq_ok_iff {ε α β : Type} {x : Except ε α} {f : α → β} {r : β} :
    x.map f = .ok r ↔ ∃ a, x = .ok a ∧ f a = r := by
  cases x with
  | error e => simp [Except.map]
  | ok a => simp [Except.map]

private theorem reached_addNode_of {b b' : Builder} {head : Dump.Head} {children : List Dump.Term}
    {id : Nat} (h : Dump.addNode b head children = .ok (id, b'))
    (hchildren : ∀ slots b', Dump.addChildren b children = .ok (slots, b') →
      b'.Reached ∧ b'.path = b.path ∧ b'.source = b.source) :
    b'.Reached ∧ b'.path = b.path ∧ b'.source = b.source := by
  rw [Dump.addNode] at h
  obtain ⟨range, -, h⟩ := bind_eq_ok_iff.mp h
  obtain ⟨heredoc, -, h⟩ := bind_eq_ok_iff.mp h
  obtain ⟨⟨slots, b''⟩, hadd, h⟩ := bind_eq_ok_iff.mp h
  obtain ⟨hreached, hpath, hsource⟩ := hchildren slots b'' hadd
  obtain ⟨-, -, -, hpathKept, hsourceKept, -⟩ := (Builder.push_eq_ok_iff ..).mp h
  exact ⟨.push hreached h, hpathKept.trans hpath, hsourceKept.trans hsource⟩

mutual

private theorem reached_addTerm {b b' : Builder} (hb : b.Reached) :
    (term : Dump.Term) → (slot : Child) → Dump.addTerm b term = .ok (slot, b') →
      b'.Reached ∧ b'.path = b.path ∧ b'.source = b.source
  | .literal l, slot, h => by
    rw [Dump.addTerm] at h
    cases h
    exact ⟨hb, rfl, rfl⟩
  | .node head children, slot, h => by
    rw [Dump.addTerm] at h
    obtain ⟨⟨id, b''⟩, hnode, h⟩ := bind_eq_ok_iff.mp h
    cases h
    exact reached_addNode_of hnode fun slots b' h => reached_addChildren hb children slots h

private theorem reached_addChildren {b b' : Builder} (hb : b.Reached) :
    (terms : List Dump.Term) → (slots : List Child) →
      Dump.addChildren b terms = .ok (slots, b') →
        b'.Reached ∧ b'.path = b.path ∧ b'.source = b.source
  | [], slots, h => by
    rw [Dump.addChildren] at h
    cases h
    exact ⟨hb, rfl, rfl⟩
  | term :: terms, slots, h => by
    rw [Dump.addChildren] at h
    obtain ⟨⟨slot, b₁⟩, hterm, h⟩ := bind_eq_ok_iff.mp h
    obtain ⟨⟨slots, b₂⟩, hterms, h⟩ := bind_eq_ok_iff.mp h
    cases h
    obtain ⟨hreached, hpath, hsource⟩ := reached_addTerm hb term slot hterm
    obtain ⟨hreached', hpath', hsource'⟩ := reached_addChildren hreached terms slots hterms
    exact ⟨hreached', hpath'.trans hpath, hsource'.trans hsource⟩

end

private theorem exists_builder_of_ofDump {path source dump : String} {t : Tree}
    (h : ofDump path source dump = .ok t) :
    ∃ (b : Builder) (root : Nat), (b.Reached ∧ b.path = path ∧ b.source = source) ∧
      b.finish root = .ok t := by
  obtain ⟨-, -, h⟩ := bind_eq_ok_iff.mp h
  obtain ⟨⟨head, children⟩, -, h⟩ := bind_eq_ok_iff.mp h
  obtain ⟨⟨root, b⟩, hadd, h⟩ := bind_eq_ok_iff.mp h
  exact ⟨b, root, reached_addNode_of hadd fun slots b' h =>
    reached_addChildren (.start path source) children slots h, h⟩

/-- A tree that is read from a dump is made by the builder. -/
theorem built_of_ofDump {path source dump : String} {t : Tree}
    (h : ofDump path source dump = .ok t) : t.Built := by
  obtain ⟨b, root, ⟨hreached, -⟩, hfinish⟩ := exists_builder_of_ofDump h
  exact ⟨b, root, hreached, hfinish⟩

/-- The tree of a dump stands for the source that it was read with. -/
theorem source_of_ofDump {path source dump : String} {t : Tree}
    (h : ofDump path source dump = .ok t) : t.source = source := by
  obtain ⟨b, root, ⟨-, -, hsource⟩, hfinish⟩ := exists_builder_of_ofDump h
  obtain ⟨-, -, rfl⟩ := (Builder.finish_eq_ok_iff ..).mp hfinish
  exact hsource

/-- The tree of a dump keeps the path that it was read with. -/
theorem path_of_ofDump {path source dump : String} {t : Tree}
    (h : ofDump path source dump = .ok t) : t.path = path := by
  obtain ⟨b, root, ⟨-, hpath, -⟩, hfinish⟩ := exists_builder_of_ofDump h
  obtain ⟨-, -, rfl⟩ := (Builder.finish_eq_ok_iff ..).mp hfinish
  exact hpath

/-! ## Above a child -/

theorem ancestors_of_none {t : Tree} {id : Nat} (h : t.parent? id = none) :
    t.ancestors id = [] := by
  rw [ancestors]
  split
  · rfl
  · simp_all

theorem ancestors_of_some {t : Tree} {id p : Nat} (h : t.parent? id = some p) :
    t.ancestors id = p :: t.ancestors p := by
  rw [ancestors]
  split
  · simp_all
  · simp_all

theorem Built.ancestors_child {t : Tree} (h : t.Built) {p c : Nat} (hc : c ∈ t.childIds p) :
    t.ancestors c = p :: t.ancestors p :=
  ancestors_of_some (h.mem_childIds_iff_parent?.mp hc)

/-- A child stands in the scopes of its parent and in the one that the parent opens. -/
theorem Built.scopesAt_child {t : Tree} (h : t.Built) {p c : Nat} (hc : c ∈ t.childIds p) :
    t.scopesAt c = t.scopesAt p ++ (Scope.ofNode? t p).toList := by
  rw [scopesAt, h.ancestors_child hc, scopesAt]
  cases hs : Scope.ofNode? t p <;> simp [hs]

end Tree
end SpecUpgrade
