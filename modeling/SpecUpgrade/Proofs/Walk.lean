import Mathlib
import SpecUpgrade.Proofs.Arena
import SpecUpgrade.Scope.Scan

/-!
The scan as a recursion over the tree. The list of steps does for a node exactly what a recursive
walk of its subtree does, for any visitor; and in a tree that the builder made a scan from the root
shows every node with the nodes and scopes that the links above it give.
-/

namespace SpecUpgrade.Scan

variable {σ : Type}

def Context.within (t : Tree) (context : Context) (id : Nat) : Context :=
  ⟨context.ancestors ++ [id], context.scopes ++ (Scope.ofNode? t id).toList⟩

/-- Shows a node to the visitor, unless it is the one that is passed over. -/
def meet (visitor : Visitor σ) (unseen : Option Nat) (state : σ) (id : Nat) (context : Context) :
    σ × Verdict :=
  if unseen = some id then (state, .descend) else visitor state id context

/-- The recursive walk of a subtree: a node, then what is below it unless the visitor leaves it out.
A visitor that ends the walk makes it fail with the last state. -/
def walk (t : Tree) (visitor : Visitor σ) (unseen : Option Nat) (context : Context) (id : Nat)
    (state : σ) : Except σ σ :=
  match meet visitor unseen state id context with
  | (state, .stop) => .error state
  | (state, .skip) => .ok state
  | (state, .descend) =>
    (t.childIds id).attach.foldlM
      (fun state ⟨c, _⟩ => walk t visitor unseen (context.within t id) c state) state
termination_by id
decreasing_by exact t.childIds_lt ‹_›

theorem walk_eq (t : Tree) (visitor : Visitor σ) (unseen : Option Nat) (context : Context)
    (id : Nat) (state : σ) :
    walk t visitor unseen context id state =
      match meet visitor unseen state id context with
      | (state, .stop) => .error state
      | (state, .skip) => .ok state
      | (state, .descend) =>
        (t.childIds id).foldlM
          (fun state c => walk t visitor unseen (context.within t id) c state) state := by
  rw [walk]
  simp [List.foldlM_subtype]

/-- Goes on with the steps that are left, unless the walk has ended the scan. -/
def resume (t : Tree) (visitor : Visitor σ) (unseen : Option Nat) (context : Context)
    (work : List Step) : Except σ σ → σ
  | .ok state => run t visitor unseen state context work
  | .error state => state

private def closing (t : Tree) (id : Nat) : List Step :=
  (Scope.ofNode? t id).toList.map (fun _ => .closeScope) ++ [.leave]

private theorem run_open (t : Tree) (visitor : Visitor σ) (unseen : Option Nat) (state : σ)
    (context : Context) (id : Nat) (work : List Step) :
    run t visitor unseen state { context with ancestors := context.ancestors ++ [id] }
        (below t id ++ work) =
      run t visitor unseen state (context.within t id)
        ((t.childIds id).map .visit ++ (closing t id ++ work)) := by
  unfold below closing Context.within
  cases Scope.ofNode? t id with
  | none => simp
  | some scope =>
    simp only [List.cons_append]
    rw [run]
    simp

private theorem run_closing (t : Tree) (visitor : Visitor σ) (unseen : Option Nat) (state : σ)
    (context : Context) (id : Nat) (work : List Step) :
    run t visitor unseen state (context.within t id) (closing t id ++ work) =
      run t visitor unseen state context work := by
  unfold closing Context.within
  cases Scope.ofNode? t id with
  | none =>
    simp only [Option.toList_none, List.map_nil, List.nil_append, List.cons_append]
    rw [run]
    simp
  | some scope =>
    simp only [Option.toList_some, List.map_cons, List.map_nil, List.cons_append, List.nil_append]
    rw [run, run]
    simp

/-- Visits to siblings, when each of them does what the walk does. -/
private theorem run_visits (t : Tree) (visitor : Visitor σ) (unseen : Option Nat) (state : σ)
    (context : Context) (ids : List Nat) (work : List Step)
    (h : ∀ c ∈ ids, ∀ state work, run t visitor unseen state context (.visit c :: work) =
      resume t visitor unseen context work (walk t visitor unseen context c state)) :
    run t visitor unseen state context (ids.map .visit ++ work) =
      resume t visitor unseen context work
        (ids.foldlM (fun state c => walk t visitor unseen context c state) state) := by
  induction ids generalizing state with
  | nil => rfl
  | cons c ids ih =>
    rw [List.map_cons, List.cons_append, h c (by simp), List.foldlM_cons]
    cases walk t visitor unseen context c state with
    | error state => rfl
    | ok state => exact ih state fun d hd => h d (by simp [hd])

/-- The steps of a visit do what the walk does. -/
theorem run_visit (t : Tree) (visitor : Visitor σ) (unseen : Option Nat) (state : σ)
    (context : Context) (id : Nat) (work : List Step) :
    run t visitor unseen state context (.visit id :: work) =
      resume t visitor unseen context work (walk t visitor unseen context id state) := by
  induction id using Nat.strongRecOn generalizing state context work with
  | ind id ih =>
    obtain ⟨state', verdict, hmeet⟩ : ∃ state' verdict,
        meet visitor unseen state id context = (state', verdict) := ⟨_, _, rfl⟩
    rw [run, walk_eq, hmeet]
    unfold meet at hmeet
    simp only [hmeet]
    cases verdict with
    | stop => rfl
    | skip => rfl
    | descend =>
      simp only
      rw [run_open, run_visits t visitor unseen state' _ _ _ fun c hc state work =>
        ih c (t.childIds_lt hc) state _ work]
      cases (t.childIds id).foldlM
          (fun state c => walk t visitor unseen (context.within t id) c state) state' with
      | error state => rfl
      | ok state => exact run_closing t visitor unseen state context id work

/-- A scan is a walk from its root with nothing around it. -/
theorem scan_eq_walk (t : Tree) (root : Nat) (showRoot : Bool) (visitor : Visitor σ) (state : σ) :
    t.scan root showRoot visitor state =
      match walk t visitor (if showRoot then none else some root) ⟨[], []⟩ root state with
      | .ok state => state
      | .error state => state := by
  rw [Tree.scan, run_visit]
  cases walk t visitor (if showRoot then none else some root) ⟨[], []⟩ root state with
  | ok state => simp [resume, run]
  | error state => rfl

/-- The visitor with a record of its visits. -/
def traced (visitor : Visitor σ) : Visitor (σ × List (Nat × Context)) :=
  fun (state, seen) id context =>
    let (state, verdict) := visitor state id context
    ((state, seen ++ [(id, context)]), verdict)

end SpecUpgrade.Scan

namespace SpecUpgrade.Tree

variable {σ : Type}

/-- The nodes and scopes around a node, as the links above it give them. -/
def contextAt (t : Tree) (id : Nat) : Scan.Context := ⟨(t.ancestors id).reverse, t.scopesAt id⟩

theorem Built.contextAt_child {t : Tree} (h : t.Built) {p c : Nat} (hc : c ∈ t.childIds p) :
    t.contextAt c = (t.contextAt p).within t p := by
  simp [contextAt, Scan.Context.within, h.ancestors_child hc, h.scopesAt_child hc]

theorem Built.contextAt_root {t : Tree} (h : t.Built) : t.contextAt t.root = ⟨[], []⟩ := by
  simp [contextAt, scopesAt, ancestors_of_none h.parent?_root]

/-- A visitor that always goes on sees the nodes of a subtree in pre-order, each in the context of
the links above it. -/
theorem Built.walk_descend {t : Tree} (h : t.Built) {visitor : Scan.Visitor σ}
    (hgoes : ∀ state id context, (visitor state id context).2 = .descend) (id : Nat) (state : σ) :
    Scan.walk t visitor none (t.contextAt id) id state =
      .ok ((t.preorder id).foldl (fun state n => (visitor state n (t.contextAt n)).1) state) := by
  induction id using Nat.strongRecOn generalizing state with
  | ind id ih =>
    have hsiblings : ∀ ids : List Nat, (∀ c ∈ ids, c ∈ t.childIds id) → ∀ state : σ,
        ids.foldlM (fun state c =>
          Scan.walk t visitor none ((t.contextAt id).within t id) c state) state =
        .ok ((ids.flatMap t.preorder).foldl
          (fun state n => (visitor state n (t.contextAt n)).1) state) := by
      intro ids
      induction ids with
      | nil => intro _ state; rfl
      | cons c ids ihids =>
        intro hids state
        have hc := hids c (by simp)
        rw [List.foldlM_cons, ← h.contextAt_child hc, ih c (t.childIds_lt hc), List.flatMap_cons,
          List.foldl_append, h.contextAt_child hc]
        exact ihids (fun d hd => hids d (by simp [hd])) _
    have hmeet : Scan.meet visitor none state id (t.contextAt id) =
        ((visitor state id (t.contextAt id)).1, .descend) :=
      Prod.ext rfl (hgoes _ _ _)
    rw [Scan.walk_eq, hmeet, preorder_eq, List.foldl_cons]
    exact hsiblings _ (fun _ hc => hc) _

theorem Built.scan_root {t : Tree} (h : t.Built) {visitor : Scan.Visitor σ}
    (hgoes : ∀ state id context, (visitor state id context).2 = .descend) (state : σ) :
    t.scan t.root true visitor state =
      t.nodesInOrder.foldl (fun state n => (visitor state n (t.contextAt n)).1) state := by
  have hwalk := h.walk_descend hgoes t.root state
  rw [h.contextAt_root] at hwalk
  rw [Scan.scan_eq_walk, if_pos rfl, hwalk]
  rfl

private theorem foldl_traced {t : Tree} (visitor : Scan.Visitor σ) (ids : List Nat) (state : σ)
    (seen : List (Nat × Scan.Context)) :
    ids.foldl (fun state n => (Scan.traced visitor state n (t.contextAt n)).1) (state, seen) =
      (ids.foldl (fun state n => (visitor state n (t.contextAt n)).1) state,
        seen ++ ids.map fun n => (n, t.contextAt n)) := by
  induction ids generalizing state seen with
  | nil => simp
  | cons n ids ih =>
    rw [List.foldl_cons, List.foldl_cons, List.map_cons, List.append_cons]
    exact ih _ _

/-- A scan of the whole tree visits the nodes in pre-order. At each of them the ancestors and the
scopes that the scan keeps are those above the node, so both answer alike whether code there runs
as part of an example. -/
theorem scan_agrees_with_links {t : Tree} (h : t.Built) (visitor : Scan.Visitor σ)
    (hgoes : ∀ state id context, (visitor state id context).2 = .descend) (state : σ) :
    let (final, visits) := t.scan t.root true (Scan.traced visitor) (state, [])
    final = t.scan t.root true visitor state ∧
      visits.map Prod.fst = t.nodesInOrder ∧
      ∀ visit ∈ visits, visit.2.ancestors = (t.ancestors visit.1).reverse ∧
        visit.2.scopes = t.scopesAt visit.1 ∧
        visit.2.inExampleContext = t.inExampleContext visit.1 := by
  have htraced : ∀ state id context, (Scan.traced visitor state id context).2 = .descend :=
    fun state id context => hgoes state.1 id context
  rw [h.scan_root htraced, h.scan_root hgoes, foldl_traced, List.nil_append]
  refine ⟨rfl, by simp [Function.comp_def], ?_⟩
  intro visit hvisit
  obtain ⟨n, -, rfl⟩ := List.mem_map.mp hvisit
  exact ⟨rfl, rfl, rfl⟩

/-- A visitor that counts the nodes of a call with a block. -/
theorem scan_agrees_with_links_block :
    ∃ t, ofDump "a.rb" "f{}" "(block @0..3 (send @0..1 nil :f) (args) nil)" = .ok t ∧
      t.nodesInOrder = [2, 0, 1] ∧
      (t.scan t.root true (Scan.traced fun n _ _ => (n + 1, .descend)) (0, [])).2.map Prod.fst =
        [2, 0, 1] := by
  have horder : (ofDump "a.rb" "f{}" "(block @0..3 (send @0..1 nil :f) (args) nil)").map
      nodesInOrder = .ok [2, 0, 1] := by cbv
  cases hread : ofDump "a.rb" "f{}" "(block @0..3 (send @0..1 nil :f) (args) nil)" with
  | error e =>
    rw [hread] at horder
    cases horder
  | ok t =>
    rw [hread] at horder
    have horder : t.nodesInOrder = [2, 0, 1] := Except.ok.inj horder
    refine ⟨t, rfl, horder, ?_⟩
    rw [← horder]
    exact (scan_agrees_with_links (built_of_ofDump hread) _ (fun _ _ _ => rfl) 0).2.1

end SpecUpgrade.Tree
