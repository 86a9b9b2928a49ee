import SpecUpgrade.Proofs.InPlace
import SpecUpgrade.Proofs.Kinship
import SpecUpgrade.Word

/-!
Trees built push by push. A push may fail at any of its checks, and it changes nothing before it has
done the last of them, so the nodes are as they were also for one who builds in place. What the
construction ends with is one tree: all nodes hang below the root, which is the last of them.
-/

namespace SpecUpgrade

namespace Builder

structure Call where
  kind : String
  range : Span
  heredoc : Option Span
  children : List Child

namespace Call

def node (c : Call) : Node := ⟨c.kind, c.range, c.heredoc, c.children, none⟩

def perform (b : Builder) (c : Call) : Except TreeError (Nat × Builder) :=
  b.push c.kind c.range c.heredoc c.children

end Call

/-- Does a push; one that fails leaves no builder, so the old one is kept. -/
def step (b : Builder) (c : Call) : Builder :=
  match c.perform b with
  | .ok (_, b') => b'
  | .error _ => b

/-- A builder after pushes, of which some may fail. -/
def after (b : Builder) (calls : List Call) : Builder := calls.foldl step b

theorem reached_step {b : Builder} (h : Reached b) (c : Call) : Reached (b.step c) := by
  unfold step
  cases hc : c.perform b with
  | error e => exact h
  | ok added => exact .push h hc

theorem source_step (b : Builder) (c : Call) : (b.step c).source = b.source := by
  unfold step
  cases hc : c.perform b with
  | error e => rfl
  | ok added =>
    obtain ⟨-, -, -, -, hsource, -⟩ := (push_eq_ok_iff ..).mp hc
    exact hsource

theorem source_after (b : Builder) (calls : List Call) : (b.after calls).source = b.source := by
  induction calls generalizing b with
  | nil => rfl
  | cons c calls ih => exact (ih (b.step c)).trans (source_step b c)

theorem reached_after {b : Builder} (h : Reached b) (calls : List Call) :
    Reached (b.after calls) := by
  induction calls generalizing b with
  | nil => exact h
  | cons c calls ih => exact ih (reached_step h c)

theorem size_perform {b b' : Builder} {c : Call} {id : Nat} (h : c.perform b = .ok (id, b')) :
    id = b.nodes.size ∧ b'.nodes.size = b.nodes.size + 1 := by
  obtain ⟨-, -, hid, -, -, hnodes⟩ := (push_eq_ok_iff ..).mp h
  rw [hnodes, Array.size_push, size_adopt]
  exact ⟨hid, rfl⟩

/-- A push adds at most one node. -/
theorem size_after_le (b : Builder) (calls : List Call) :
    (b.after calls).nodes.size ≤ b.nodes.size + calls.length := by
  induction calls generalizing b with
  | nil => exact Nat.le_refl _
  | cons c calls ih =>
    have hstep : (b.step c).nodes.size ≤ b.nodes.size + 1 := by
      unfold step
      cases hc : c.perform b with
      | error e => exact Nat.le_succ _
      | ok added => exact Nat.le_of_eq (size_perform hc).2
    have hlater : (b.after (c :: calls)).nodes.size ≤ (b.step c).nodes.size + calls.length :=
      ih (b.step c)
    rw [List.length_cons]
    omega

/-! ## Building in place -/

/-- Changes the nodes as it goes; what has been changed stays so when a later step fails. -/
abbrev InPlace := EStateM TreeError (Array Node)

def checkRangeInPlace (source : String) (range : Span) : InPlace Unit :=
  match checkRange source range with
  | .ok () => pure ()
  | .error e => throw e

def checkInPlace : List Nat → InPlace Unit
  | [] => pure ()
  | c :: cs => do
    match (← get)[c]? with
    | none => throw (.unknownNode c)
    | some n => if n.parent.isSome then throw (.alreadyAdopted c) else checkInPlace cs

def adoptInPlace (parent : Nat) : List Nat → InPlace Unit
  | [] => pure ()
  | c :: cs => do
    modify (·.modify c fun n => { n with parent := some parent })
    adoptInPlace parent cs

def checkHeredocInPlace (source : String) : Option Span → InPlace Unit
  | some body => checkRangeInPlace source body
  | none => pure ()

/-- The last part of a push in place, which looks at the children and takes them. -/
def attachInPlace (c : Call) : InPlace Nat := do
  let id := (← get).size
  checkInPlace c.node.childIds
  adoptInPlace id c.node.childIds
  modify (·.push c.node)
  return id

def pushInPlace (source : String) (c : Call) : InPlace Nat := do
  checkRangeInPlace source c.range
  checkHeredocInPlace source c.heredoc
  attachInPlace c

/-- The nodes after one more push in place, be it that it fails. -/
def stepInPlace (source : String) (nodes : Array Node) (c : Call) : Array Node :=
  match pushInPlace source c nodes with
  | .ok _ nodes => nodes
  | .error _ nodes => nodes

theorem checkRangeInPlace_eq (source : String) (range : Span) (nodes : Array Node) :
    checkRangeInPlace source range nodes =
      match checkRange source range with
      | .ok () => .ok () nodes
      | .error e => .error e nodes := by
  unfold checkRangeInPlace
  cases checkRange source range <;> rfl

theorem checkInPlace_eq (ids : List Nat) (nodes : Array Node) :
    checkInPlace ids nodes =
      match childFault nodes ids with
      | some e => .error e nodes
      | none => .ok () nodes := by
  induction ids with
  | nil => rfl
  | cons c ids ih =>
    rw [checkInPlace, get_bind, childFault]
    cases nodes[c]? with
    | none => rfl
    | some n =>
      cases hp : n.parent with
      | none => simpa [hp] using ih
      | some p =>
        simp only [hp, Option.isSome_some, if_true]
        rfl

theorem adopt_nil (parent : Nat) (nodes : Array Node) : adopt parent [] nodes = nodes := by
  refine Array.ext_getElem? fun i => ?_
  rw [getElem?_adopt]
  simp

theorem adopt_cons (parent c : Nat) (ids : List Nat) (nodes : Array Node) :
    adopt parent (c :: ids) nodes =
      adopt parent ids (nodes.modify c fun n => { n with parent := some parent }) := by
  refine Array.ext_getElem? fun i => ?_
  rw [getElem?_adopt, getElem?_adopt, Array.getElem?_modify]
  by_cases hc : c = i
  · cases nodes[i]? <;> by_cases hi : i ∈ ids <;> simp [hc, hi]
  · have hne : ¬ i = c := fun h => hc h.symm
    simp [hc, hne]

theorem adoptInPlace_eq (parent : Nat) (ids : List Nat) (nodes : Array Node) :
    adoptInPlace parent ids nodes = .ok () (adopt parent ids nodes) := by
  induction ids generalizing nodes with
  | nil => rw [adopt_nil]; rfl
  | cons c ids ih =>
    rw [adopt_cons, ← ih]
    rfl

theorem attachInPlace_eq (c : Call) (nodes : Array Node) :
    attachInPlace c nodes =
      match childFault nodes c.node.childIds with
      | some e => .error e nodes
      | none => .ok nodes.size ((adopt nodes.size c.node.childIds nodes).push c.node) := by
  have hcheck := checkInPlace_eq c.node.childIds nodes
  rw [attachInPlace, get_bind]
  cases hfault : childFault nodes c.node.childIds with
  | some e =>
    rw [hfault] at hcheck
    exact bind_of_error hcheck
  | none =>
    rw [hfault] at hcheck
    rw [bind_of_ok hcheck, bind_of_ok (adoptInPlace_eq ..)]
    rfl

/-- A node is attached in place as a builder attaches it. -/
theorem attachInPlace_nodes (b : Builder) (c : Call) :
    attachInPlace c b.nodes =
      match (match h : childFault b.nodes c.node.childIds with
        | some e => .error e
        | none => .ok (b.nodes.size, { b with
            nodes := (adopt b.nodes.size c.node.childIds b.nodes).push c.node
            linked := linked_adopt_push b.linked rfl (lt_size_of_childFault h) }) :
          Except TreeError (Nat × Builder)) with
      | .ok (id, b') => .ok id b'.nodes
      | .error e => .error e b.nodes := by
  rw [attachInPlace_eq]
  split
  · rename_i e hfault
    split <;> (rename_i heq; split at heq <;> simp_all)
  · rename_i hfault
    split <;> (rename_i heq; split at heq)
    · simp_all
    · cases heq
      rfl
    · simp_all
    · simp_all

/-- In place a push does the same: one that fails has changed nothing. -/
theorem pushInPlace_eq (b : Builder) (c : Call) :
    pushInPlace b.source c b.nodes =
      match c.perform b with
      | .ok (id, b') => .ok id b'.nodes
      | .error e => .error e b.nodes := by
  have hattach := attachInPlace_nodes b c
  have hrange := checkRangeInPlace_eq b.source c.range b.nodes
  obtain ⟨kind, range, heredoc, children⟩ := c
  unfold pushInPlace Call.perform push
  cases hr : checkRange b.source range with
  | error e =>
    rw [hr] at hrange
    exact bind_of_error hrange
  | ok u =>
    rw [hr] at hrange
    rw [bind_of_ok hrange]
    cases heredoc with
    | none => exact hattach
    | some body =>
      have hbody := checkRangeInPlace_eq b.source body b.nodes
      cases hb : checkRange b.source body with
      | error e =>
        rw [hb] at hbody
        simp only [bind, Except.bind, hb]
        exact bind_of_error hbody
      | ok u =>
        rw [hb] at hbody
        simp only [Except.bind, hb, bind]
        exact (bind_of_ok hbody).trans hattach

/-- The nodes after pushes in place are those of the builder after them. -/
theorem foldl_stepInPlace (b : Builder) (calls : List Call) :
    calls.foldl (stepInPlace b.source) b.nodes = (b.after calls).nodes := by
  induction calls generalizing b with
  | nil => rfl
  | cons c calls ih =>
    have hstep : stepInPlace b.source b.nodes c = (b.step c).nodes := by
      rw [stepInPlace, pushInPlace_eq, step]
      cases c.perform b <;> rfl
    rw [List.foldl_cons, hstep, ← source_step b c, ih]
    rfl

/-! ## The end of the construction -/

/-- The node that was added last is in no other. -/
theorem Reached.last_orphan {b : Builder} (h : Reached b) {i : Nat} (hi : i + 1 = b.nodes.size) :
    ∃ n, b.nodes[i]? = some n ∧ n.parent = none := by
  cases h with
  | start path source => simp [Builder.start] at hi
  | @push b _ kind range heredoc children _ hb hpush =>
    obtain ⟨-, -, -, -, -, hnodes⟩ := (push_eq_ok_iff ..).mp hpush
    rw [hnodes, Array.size_push, size_adopt] at hi
    refine ⟨⟨kind, range, heredoc, children, none⟩, ?_, rfl⟩
    rw [hnodes, Array.getElem?_push, size_adopt, if_pos (by omega)]

end Builder

namespace Tree

/-- All nodes of a tree hang together below the root. -/
structure Rooted (t : Tree) : Prop where
  /-- The root was added last. -/
  root_last : t.root + 1 = t.size
  parent?_eq_none_iff : ∀ {id : Nat}, id < t.size → (t.parent? id = none ↔ id = t.root)
  /-- The parent of a node comes behind it and has it in a slot. -/
  mem_parent : ∀ {id p : Nat}, t.parent? id = some p → id ∈ t.childIds p ∧ id < p ∧ p < t.size
  parent_of_mem : ∀ {p c : Nat}, c ∈ t.childIds p → t.parent? c = some p
  /-- The way up from a node ends at the root. -/
  ancestors_end : ∀ {id : Nat}, id < t.size → (id :: t.ancestors id).getLast? = some t.root
  /-- The way down from the root reaches every node. -/
  reachable : ∀ {id : Nat}, id < t.size → id ∈ t.nodesInOrder
  fits : ∀ {id : Nat} {n : Node}, t.node? id = some n → n.Fits t.source

namespace Built

variable {t : Tree}

theorem parent?_eq_none_iff (h : t.Built) {id : Nat} (hid : id < t.size) :
    t.parent? id = none ↔ id = t.root := by
  refine ⟨fun hnone => ?_, fun heq => heq ▸ h.parent?_root⟩
  obtain ⟨b, root, -, hfinish⟩ := h
  obtain ⟨-, hparents, rfl⟩ := (Builder.finish_eq_ok_iff ..).mp hfinish
  refine Decidable.byContradiction fun hne => ?_
  obtain ⟨n, hn⟩ : ∃ n, b.nodes[id]? = some n :=
    ⟨_, Array.getElem?_eq_some_iff.mpr ⟨hid, rfl⟩⟩
  obtain ⟨p, hp⟩ := hparents id n hn hne
  simp [parent?, node?, hn, hp] at hnone

theorem root_last (h : t.Built) : t.root + 1 = t.size := by
  have hroot := h.root_lt_size
  have horphan : t.parent? (t.size - 1) = none := by
    obtain ⟨b, root, hb, hfinish⟩ := h
    obtain ⟨-, -, rfl⟩ := (Builder.finish_eq_ok_iff ..).mp hfinish
    have hpos : 0 < b.nodes.size := Nat.lt_of_le_of_lt (Nat.zero_le _) hroot
    obtain ⟨n, hn, hp⟩ := hb.last_orphan (Nat.sub_add_cancel hpos)
    simp [parent?, node?, size, hn, hp]
  have := (h.parent?_eq_none_iff (by omega)).mp horphan
  omega

theorem ancestors_end (h : t.Built) {id : Nat} (hid : id < t.size) :
    (id :: t.ancestors id).getLast? = some t.root := by
  fun_induction t.ancestors id with
  | case1 id hp => rw [(h.parent?_eq_none_iff hid).mp hp]; rfl
  | case2 id p hp ih =>
    rw [List.getLast?_cons_cons]
    exact ih (t.lt_parent hp).2

theorem mem_nodesInOrder (h : t.Built) {id : Nat} (hid : id < t.size) : id ∈ t.nodesInOrder := by
  have hmem := List.mem_of_getLast? (h.ancestors_end hid)
  refine h.mem_preorder_iff.mpr ((List.mem_cons.mp hmem).imp_left Eq.symm)

theorem rooted (h : t.Built) : t.Rooted where
  root_last := h.root_last
  parent?_eq_none_iff := h.parent?_eq_none_iff
  mem_parent hp := ⟨h.mem_childIds_iff_parent?.mpr hp, t.lt_parent hp⟩
  parent_of_mem := h.mem_childIds_iff_parent?.mp
  ancestors_end := h.ancestors_end
  reachable := h.mem_nodesInOrder
  fits hn := h.agreed.fits hn

end Built
end Tree

namespace Builder

/-- After any pushes the nodes are those that pushes in place leave, where one that fails changes
nothing. When the construction can be ended, it ends with a tree of these nodes in which everything
hangs below the root, and every range fits the source. Up to the `2 ^ 32`-th push a new node has a
number of thirty-two bits. -/
theorem after_finish_rooted (path source : String) (calls : List Call) :
    let b := (start path source).after calls
    calls.foldl (stepInPlace source) #[] = b.nodes ∧
      (∀ call e nodes, pushInPlace source call b.nodes = .error e nodes → nodes = b.nodes) ∧
      (∀ root t, b.finish root = .ok t →
        t.root = root ∧ t.source = source ∧ t.nodes = b.nodes ∧ t.Rooted) ∧
      (calls.length < Word.bound32 → ∀ (call : Call) id b', call.perform b = .ok (id, b') →
        id < Word.bound32) := by
  have hsource : ((start path source).after calls).source = source := source_after _ calls
  refine ⟨foldl_stepInPlace (start path source) calls, fun call e nodes hfail => ?_,
    fun root t hfinish => ?_, fun hlength call id b' hcall => ?_⟩
  · have heq := pushInPlace_eq ((start path source).after calls) call
    rw [hsource, hfail] at heq
    cases hc : call.perform ((start path source).after calls) with
    | ok added =>
      rw [hc] at heq
      cases heq
    | error e' =>
      rw [hc] at heq
      cases heq
      rfl
  · have hbuilt : t.Built := ⟨_, root, reached_after (.start path source) calls, hfinish⟩
    obtain ⟨-, -, rfl⟩ := (finish_eq_ok_iff ..).mp hfinish
    exact ⟨rfl, hsource, rfl, hbuilt.rooted⟩
  · have hsize := size_after_le (start path source) calls
    rw [← (size_perform hcall).1] at hsize
    have hempty : (start path source).nodes.size = 0 := rfl
    omega

/-- A push that fails at its second child, between two that add nodes. -/
theorem after_finish_rooted_unknown :
    let first : Call := ⟨"a", ⟨0, 1, by decide⟩, none, []⟩
    let failing : Call := ⟨"b", ⟨0, 2, by decide⟩, none, [.node 0, .node 7]⟩
    let last : Call := ⟨"c", ⟨0, 2, by decide⟩, none, [.node 0, .literal .nil]⟩
    let b := (start "a.rb" "ab").after [first, failing, last]
    (failing.perform ((start "a.rb" "ab").after [first])).toOption.isNone = true ∧
      ∃ t, b.finish 1 = .ok t ∧ t.size = 2 ∧ t.Rooted := by
  intro first failing last b
  have hcheck : (b.finish 1).toOption.map (·.size) = some 2 := by decide +kernel
  refine ⟨by decide +kernel, ?_⟩
  cases hfinish : b.finish 1 with
  | error e =>
    rw [hfinish] at hcheck
    cases hcheck
  | ok t =>
    rw [hfinish] at hcheck
    have hrooted := (after_finish_rooted "a.rb" "ab" [first, failing, last]).2.2.1 1 t hfinish
    exact ⟨t, rfl, Option.some.inj hcheck, hrooted.2.2.2⟩

end Builder
end SpecUpgrade
