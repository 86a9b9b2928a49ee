import Mathlib.Data.Option.Basic
import SpecUpgrade.Proofs.Arena
import SpecUpgrade.Rule.Conversion

/-!
Where the parts of calls stand. Between a receiver and the arguments of a call stands its name, and
the stretch from the end of the one to the end of the other fits the source; in a well-formed tree
ranges nest, and the places of siblings are separate.
-/

namespace SpecUpgrade

namespace Tree

/-! ## Boundaries between a receiver and a name -/

/-- Behind a text that stands at a boundary is a boundary. -/
theorem isBoundary_behind {cs front : List Char} {offset : Nat}
    (hoffset : Text.isBoundary cs offset = true) (hfront : front <+: Text.dropTo offset cs) :
    Text.isBoundary cs (offset + Text.byteLength front) = true := by
  obtain ⟨rest, hrest⟩ := hfront
  rw [← Text.isBoundary_dropTo hoffset (Nat.le_add_right _ _), Nat.add_sub_cancel_left, ← hrest]
  exact Text.isBoundary_byteLength front rest

theorem isBoundary_skipBlank {cs : List Char} {offset : Nat}
    (h : Text.isBoundary cs offset = true) : Text.isBoundary cs (skipBlank cs offset) = true :=
  isBoundary_behind h <| List.takeWhile_prefix _

theorem isBoundary_skipOperator {cs : List Char} {offset : Nat}
    (h : Text.isBoundary cs offset = true) :
    Text.isBoundary cs (skipOperator cs offset) = true := by
  unfold skipOperator
  split
  · rename_i op hop
    have hstands := List.find?_some hop
    exact isBoundary_behind h (List.isPrefixOf_iff_prefix.mp hstands)
  · exact h

theorem Built.isBoundary_selectorStart {t : Tree} (h : t.Built) (id : Nat) :
    Text.isBoundary t.source.toList (t.selectorStart id) = true := by
  unfold selectorStart
  cases hr : t.receiver? id with
  | none => exact (range_fits h id).start_boundary
  | some r =>
    exact isBoundary_skipBlank (isBoundary_skipOperator (isBoundary_skipBlank
      (range_fits h r).stop_boundary))

/-- The name of a call stands where it is looked for, within the call. -/
theorem selector?_eq_some_iff {t : Tree} {id : Nat} {s : Span} :
    t.selector? id = some s ↔ ∃ name, t.methodName? id = some name ∧
      name.toList <+: Text.dropTo (t.selectorStart id) t.source.toList ∧
      s.start = t.selectorStart id ∧ s.stop = s.start + Text.byteLength name.toList ∧
      s.stop ≤ (t.range id).stop := by
  unfold selector?
  cases hn : t.methodName? id with
  | none => simp
  | some name =>
    simp only [Option.bind_eq_bind, Option.bind_some, Option.ite_none_right_eq_some,
      Bool.and_eq_true, decide_eq_true_eq, List.isPrefixOf_iff_prefix, Option.some.injEq,
      exists_eq_left']
    constructor
    · rintro ⟨⟨hstands, hstop⟩, rfl⟩
      exact ⟨hstands, rfl, rfl, hstop⟩
    · rintro ⟨hstands, hstart, hlength, hstop⟩
      rw [hlength, hstart] at hstop
      refine ⟨⟨hstands, hstop⟩, ?_⟩
      cases s
      simp_all

theorem tail?_eq_some {t : Tree} {id r : Nat} {tail : Span} (h : t.tail? id = some tail)
    (hr : t.receiver? id = some r) :
    tail.start = (t.range r).stop ∧ ∃ s, t.selector? id = some s ∧ tail.stop = s.stop := by
  unfold tail? at h
  split at h
  · rename_i r' s hr' hs
    rw [hr] at hr'
    cases hr'
    cases h
    exact ⟨rfl, s, hs, rfl⟩
  · cases h

/-- A receiver ends where the name of its call ends or before, so there is a span between them. -/
theorem tail?_of_selector? {t : Tree} {id r : Nat} {s : Span} (hr : t.receiver? id = some r)
    (hs : t.selector? id = some s) :
    t.tail? id = some ⟨(t.range r).stop, s.stop, receiver_le_selector hr hs⟩ := by
  unfold tail?
  split
  · rename_i r' s' hr' hs'
    cases hr.symm.trans hr'
    cases hs.symm.trans hs'
    rfl
  · rename_i hnone
    exact absurd hs (hnone r s hr)

/-! ## Slots -/

private theorem slots_from {k : Nat} (hk : 2 ≤ k) (slots : List Child) :
    (((slots.zipIdx k).filterMap fun (c, i) => c.node?.map (i, ·)).filter
      fun (i, _) => decide (2 ≤ i)).map (·.2) = slots.filterMap Child.node? := by
  induction slots generalizing k with
  | nil => rfl
  | cons c slots ih =>
    have hrest := ih (Nat.le_succ_of_le hk)
    cases hc : c.node? with
    | none => simpa [List.zipIdx_cons, hc] using hrest
    | some n => simpa [List.zipIdx_cons, hc, hk] using hrest

theorem childIds_eq_filterMap (t : Tree) (id : Nat) :
    t.childIds id = (t.children id).filterMap Child.node? := by
  unfold childIds children Node.childIds
  cases t.node? id <;> rfl

/-- A call holds its receiver, if it has one, and then its arguments. -/
theorem childIds_of_call {t : Tree} {id : Nat} {name : String}
    (hname : t.methodName? id = some name) :
    t.childIds id = (t.receiver? id).toList ++ t.arguments id := by
  have hcall : t.isCall id = true := by
    unfold methodName? at hname
    split at hname
    · assumption
    · cases hname
  rw [methodName?, if_pos hcall] at hname
  rw [childIds_eq_filterMap, receiver?, arguments, if_pos hcall, if_pos hcall]
  unfold symbol? literal? at hname
  unfold childNode? childSlots
  -- the name is a literal in the second slot, so the arguments are all slots after it
  match hslots : t.children id with
  | [] => simp [hslots] at hname
  | [_] => simp [hslots] at hname
  | receiver :: .node _ :: _ => simp [hslots, Child.literal?] at hname
  | receiver :: .literal _ :: slots =>
    have hrest := slots_from (Nat.le_refl 2) slots
    cases receiver with
    | literal l => exact hrest.symm
    | node r => exact congrArg (List.cons r) hrest.symm

/-- A node in the first slot is the first child. -/
theorem childIds_of_first {t : Tree} {id c : Nat} (h : t.childNode? id 0 = some c) :
    ∃ rest, t.childIds id = c :: rest := by
  unfold childNode? at h
  rw [childIds_eq_filterMap]
  match hslots : t.children id with
  | [] => simp [hslots] at h
  | slot :: slots =>
    simp only [hslots, List.getElem?_cons_zero, Option.bind_some] at h
    exact ⟨slots.filterMap Child.node?, List.filterMap_cons_some h⟩

end Tree

/-! ## Matches -/

namespace Match

/-- The parts that a converted call with a receiver has. -/
structure Parts (t : Tree) (id subject : Nat) (tail : Span) : Prop where
  receiver : t.receiver? id = some subject
  tail : t.tail? id = some tail
  name : ∃ name, t.methodName? id = some name ∧ name.toList ≠ []

/-- What the node of a match and its parts are. -/
def Stands (t : Tree) (id : Nat) : Match → Prop
  | should node subject tail _ => node = id ∧ Parts t id subject tail
  | stub node object tail _ => node = id ∧ Parts t id object tail
  | beClose node _ _ => node = id

private theorem should?_stands {t : Tree} {id : Nat} {m : Match} (h : should? t id = some m) :
    m.Stands t id := by
  simp only [should?, Option.bind_eq_bind, Option.bind_eq_some_iff, Option.pure_def,
    Option.some.injEq] at h
  obtain ⟨-, -, name, hname, negative, hpolarity, subject, hsubject, -, -, tail, htail, rfl⟩ := h
  refine ⟨rfl, hsubject, htail, name, hname, ?_⟩
  rintro hempty
  rw [String.toList_eq_nil_iff] at hempty
  subst hempty
  simp [polarity?] at hpolarity

/-- A call with a receiver, the name of an expectation and one matcher is matched when its name
stands where it should. -/
theorem exists_should? {t : Tree} {id subject : Nat} {name : String} {negative : Bool} {s : Span}
    (hkind : t.kind id = "send") (hname : t.methodName? id = some name)
    (hpolarity : polarity? name = some negative) (hsubject : t.receiver? id = some subject)
    (harguments : (t.arguments id).length = 1) (hs : t.selector? id = some s) :
    ∃ tail, should? t id = some (.should id subject tail negative) :=
  ⟨⟨(t.range subject).stop, s.stop, Tree.receiver_le_selector hsubject hs⟩, by
    simp [should?, guard, hkind, hname, hpolarity, hsubject, harguments,
      Tree.tail?_of_selector? hsubject hs]⟩

private theorem stub?_stands {t : Tree} {id : Nat} {m : Match} (h : stub? t id = some m) :
    m.Stands t id := by
  simp only [stub?, Option.bind_eq_bind, Option.bind_eq_some_iff, Option.pure_def] at h
  obtain ⟨-, -, name, hname, _, hguard, object, hobject, h⟩ := h
  split at h
  · simp only [Option.bind_eq_some_iff, Option.some.injEq] at h
    obtain ⟨messages, -, tail, htail, rfl⟩ := h
    refine ⟨rfl, hobject, htail, name, hname, ?_⟩
    rintro hempty
    rw [String.toList_eq_nil_iff] at hempty
    subst hempty
    simp at hguard
  · cases h

private theorem beClose?_stands {t : Tree} {id : Nat} {m : Match} (h : beClose? t id = some m) :
    m.Stands t id := by
  simp only [beClose?, Option.bind_eq_bind, Option.bind_eq_some_iff, Option.pure_def] at h
  obtain ⟨-, -, -, -, -, -, h⟩ := h
  split at h
  · cases h
    rfl
  · cases h

theorem at?_stands {t : Tree} {enabled : List Rule} {id : Nat} {m : Match}
    (h : at? t enabled id = some m) : m.Stands t id := by
  obtain ⟨rule, -, hrule⟩ := List.exists_of_findSome?_eq_some h
  cases rule with
  | should => exact should?_stands hrule
  | stub => exact stub?_stands hrule
  | beClose => exact beClose?_stands hrule

/-- Only calls are matched. -/
theorem kind_of_at? {t : Tree} {enabled : List Rule} {id : Nat} {m : Match}
    (h : at? t enabled id = some m) : t.kind id = "send" := by
  obtain ⟨rule, -, hrule⟩ := List.exists_of_findSome?_eq_some h
  cases rule <;> simp only [ofRule?, should?, stub?, beClose?, Option.bind_eq_bind,
    Option.bind_eq_some_iff] at hrule
  all_goals
    obtain ⟨_, hguard, -⟩ := hrule
    simpa [Option.guard_eq_some'] using hguard

namespace Parts

variable {t : Tree} {id subject : Nat} {tail : Span}

theorem childIds (h : Parts t id subject tail) :
    t.childIds id = subject :: t.arguments id := by
  obtain ⟨name, hname, -⟩ := h.name
  rw [Tree.childIds_of_call hname, h.receiver, Option.toList_some, List.singleton_append]

theorem start_eq (h : Parts t id subject tail) : tail.start = (t.range subject).stop :=
  (Tree.tail?_eq_some h.tail h.receiver).1

theorem start_lt_stop (h : Parts t id subject tail) : tail.start < tail.stop := by
  obtain ⟨hstart, s, hs, hstop⟩ := Tree.tail?_eq_some h.tail h.receiver
  obtain ⟨name, hname, -, hsstart, hsstop, -⟩ := Tree.selector?_eq_some_iff.mp hs
  obtain ⟨name', hname', hne⟩ := h.name
  rw [hname] at hname'
  cases hname'
  have hle := Tree.stop_le_selectorStart h.receiver
  have hpos : 0 < Text.byteLength name.toList := by
    cases hcs : name.toList with
    | nil => exact absurd hcs hne
    | cons c cs => exact Text.byteLength_pos
  omega

theorem stop_le (h : Parts t id subject tail) : tail.stop ≤ (t.range id).stop := by
  obtain ⟨-, s, hs, hstop⟩ := Tree.tail?_eq_some h.tail h.receiver
  obtain ⟨-, -, -, -, -, hle⟩ := Tree.selector?_eq_some_iff.mp hs
  rw [hstop]
  exact hle

theorem fits (h : Parts t id subject tail) (ht : t.Built) : tail.Fits t.source := by
  obtain ⟨hstart, s, hs, hstop⟩ := Tree.tail?_eq_some h.tail h.receiver
  obtain ⟨name, -, hstands, hsstart, hsstop, -⟩ := Tree.selector?_eq_some_iff.mp hs
  have hboundary : Text.isBoundary t.source.toList tail.stop = true := by
    rw [hstop, hsstop, hsstart]
    exact Tree.isBoundary_behind (ht.isBoundary_selectorStart id) hstands
  refine ⟨Text.le_byteLength_of_isBoundary hboundary, ?_, hboundary⟩
  rw [hstart]
  exact (Tree.range_fits ht subject).stop_boundary

end Parts

end Match

/-! ## Well-formed trees -/

/-- No offset lies in both spans. -/
def Span.Separate (a b : Span) : Prop :=
  a.isEmpty = true ∨ b.isEmpty = true ∨ a.overlaps b = false

instance (a b : Span) : Decidable (a.Separate b) := inferInstanceAs (Decidable (_ ∨ _ ∨ _))

theorem Span.Separate.le_or_le {a b : Span} (h : a.Separate b) (ha : a.start < a.stop)
    (hb : b.start < b.stop) : a.stop ≤ b.start ∨ b.stop ≤ a.start := by
  simp only [Separate, isEmpty, overlaps, beq_iff_eq, Bool.and_eq_false_iff,
    decide_eq_false_iff_not] at h
  omega

theorem Span.Separate.symm {a b : Span} (h : a.Separate b) : b.Separate a := by
  simp only [Separate, isEmpty, overlaps, beq_iff_eq, Bool.and_eq_false_iff,
    decide_eq_false_iff_not] at h ⊢
  omega

theorem Span.start_lt_stop {s : Span} (h : s.isEmpty = false) : s.start < s.stop := by
  have := s.start_le_stop
  simp only [isEmpty, beq_eq_false_iff_ne] at h
  omega

namespace Tree

/-- The node has a place; one that has none is given the empty span at the start. -/
def Located (t : Tree) (id : Nat) : Prop := t.range id ≠ Span.point 0

instance (t : Tree) (id : Nat) : Decidable (t.Located id) := inferInstanceAs (Decidable (_ ≠ _))

/-- Places nest as the nodes do. Nothing with a place stands below a node without one, since the
empty span at the start holds no other; and a receiver always ends where the name is looked for or
before. -/
structure WellFormed (t : Tree) (enabled : List Rule) : Prop where
  inside : ∀ p, ∀ c ∈ t.childIds p, t.Located c → (t.range p).contains (t.range c) = true
  siblings : ∀ p, (t.childIds p).Pairwise fun c d => (t.range c).Separate (t.range d)
  arguments_behind : ∀ id, ∀ name ∈ t.selector? id, ∀ c ∈ t.arguments id, t.Located c →
    name.stop ≤ (t.range c).start
  receivers : ∀ id, ∀ r ∈ t.receiver? id, (t.range r).isEmpty = false
  detected : ∀ id, ∀ m ∈ Match.at? t enabled id, (t.range id).isEmpty = false
  block_calls : ∀ id, t.kind id = "block" → ∀ c ∈ t.childNode? id 0,
    (t.range c).isEmpty = false

variable {t : Tree} {enabled : List Rule}

theorem located_of_nonempty {id : Nat} (h : (t.range id).start < (t.range id).stop) :
    t.Located id := by
  intro hpoint
  rw [hpoint] at h
  exact Nat.lt_irrefl _ h

namespace WellFormed

theorem child_inside (h : t.WellFormed enabled) {p c : Nat} (hc : c ∈ t.childIds p)
    (hne : (t.range c).start < (t.range c).stop) :
    (t.range p).start ≤ (t.range c).start ∧ (t.range c).stop ≤ (t.range p).stop := by
  have hcontains := h.inside p c hc (located_of_nonempty hne)
  simpa [Span.contains] using hcontains

/-- What lies below a node and has a place that is not empty lies in the place of the node. -/
theorem preorder_inside (h : t.WellFormed enabled) {id n : Nat} (hn : n ∈ t.preorder id)
    (hne : (t.range n).start < (t.range n).stop) :
    (t.range id).start ≤ (t.range n).start ∧ (t.range n).stop ≤ (t.range id).stop := by
  induction id using Nat.strongRecOn generalizing n with
  | ind id ih =>
    rw [preorder_eq, List.mem_cons, List.mem_flatMap] at hn
    rcases hn with rfl | ⟨c, hc, hn⟩
    · exact ⟨Nat.le_refl _, Nat.le_refl _⟩
    · have hin := ih c (t.childIds_lt hc) hn hne
      have hcin := h.child_inside hc (by omega)
      omega

end WellFormed

/-- A check of the places, node by node. It asks every call for a place that is not empty, not only
those that a rule claims. -/
def placesNest (t : Tree) : Bool :=
  (List.range t.size).all fun id =>
    (t.childIds id).all (fun c => decide (t.Located c → (t.range id).contains (t.range c) = true)) &&
    decide ((t.childIds id).Pairwise fun c d => (t.range c).Separate (t.range d)) &&
    (t.selector? id).all (fun name => (t.arguments id).all fun c =>
      decide (t.Located c → name.stop ≤ (t.range c).start)) &&
    (t.receiver? id).all (fun r => !(t.range r).isEmpty) &&
    (t.kind id != "send" || !(t.range id).isEmpty) &&
    (t.kind id != "block" || (t.childNode? id 0).all fun c => !(t.range c).isEmpty)

private theorem lt_size_of_kind {id : Nat} (h : t.kind id ≠ "") : id < t.size := by
  refine Nat.not_le.mp fun hge => h ?_
  simp [kind, node?, Array.getElem?_eq_none hge]

private theorem lt_size_of_isCall {id : Nat} (h : t.isCall id = true) : id < t.size := by
  apply lt_size_of_kind
  intro hkind
  simp [isCall, hkind] at h

theorem wellFormed_of_placesNest (h : t.placesNest = true) (enabled : List Rule) :
    t.WellFormed enabled := by
  simp only [placesNest, List.all_eq_true, List.mem_range, Bool.and_eq_true, decide_eq_true_eq,
    Option.all_eq_true, Bool.or_eq_true, bne_iff_ne, Bool.not_eq_true'] at h
  have hcall : ∀ {id : Nat}, t.isCall id = true → id < t.size := lt_size_of_isCall
  constructor
  · intro p c hc
    obtain ⟨n, hn, -⟩ := mem_childIds_iff.mp hc
    exact (h p (Array.getElem?_eq_some_iff.mp hn).1).1.1.1.1.1 c hc
  · intro p
    by_cases hp : p < t.size
    · exact (h p hp).1.1.1.1.2
    · have hnone : t.nodes[p]? = none := Array.getElem?_eq_none (Nat.not_lt.mp hp)
      simp [childIds, node?, hnone]
  · intro id name hname
    obtain ⟨text, htext, -⟩ := selector?_eq_some_iff.mp hname
    have hid : id < t.size := hcall (by
      unfold methodName? at htext
      split at htext
      · assumption
      · cases htext)
    exact (h id hid).1.1.1.2 name hname
  · intro id r hr
    have hid : id < t.size := hcall (by
      unfold receiver? at hr
      split at hr
      · assumption
      · cases hr)
    exact (h id hid).1.1.2 r hr
  · intro id m hm
    have hkind := Match.kind_of_at? hm
    have hid : id < t.size := lt_size_of_kind (by rw [hkind]; decide)
    exact (h id hid).1.2.resolve_left (· hkind)
  · intro id hkind c hc
    have hid : id < t.size := lt_size_of_kind (by rw [hkind]; decide)
    exact (h id hid).2.resolve_left (· hkind) c hc

end Tree
end SpecUpgrade
