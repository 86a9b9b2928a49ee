import SpecUpgrade.Proofs.Kinship
import SpecUpgrade.Proofs.Walk

/-!
Scans from any node and with any visitor. The loop over the list of steps comes to an end, and it
shows the visitor what a recursive walk of the subtree shows it, wherever the visitor leaves out a
subtree or ends the scan. What stands above the first node is never seen.
-/

namespace SpecUpgrade.Scan

variable {σ : Type}

/-! ## The loop -/

/-- One pass of the loop: the state and the context after it and the steps that are put in front of
the others, or the last state where the visitor ends the scan. -/
def pass (t : Tree) (visitor : Visitor σ) (unseen : Option Nat) (state : σ) (context : Context) :
    Step → Except σ (σ × Context × List Step)
  | .openScope scope => .ok (state, { context with scopes := context.scopes ++ [scope] }, [])
  | .closeScope => .ok (state, { context with scopes := context.scopes.dropLast }, [])
  | .leave => .ok (state, { context with ancestors := context.ancestors.dropLast }, [])
  | .visit id =>
    match meet visitor unseen state id context with
    | (state, .stop) => .error state
    | (state, .skip) => .ok (state, context, [])
    | (state, .descend) =>
      .ok (state, { context with ancestors := context.ancestors ++ [id] }, below t id)

/-- The loop for at most so many passes: the last state, if it has come to an end by then. -/
def runFor (t : Tree) (visitor : Visitor σ) (unseen : Option Nat) :
    Nat → σ → Context → List Step → Option σ
  | _, state, _, [] => some state
  | 0, _, _, _ :: _ => none
  | n + 1, state, context, step :: work =>
    match pass t visitor unseen state context step with
    | .error state => some state
    | .ok (state, context, first) => runFor t visitor unseen n state context (first ++ work)

section Loop

variable {t : Tree} {visitor : Visitor σ} {unseen : Option Nat} {state : σ} {context : Context}

theorem run_cons (step : Step) (work : List Step) :
    run t visitor unseen state context (step :: work) =
      match pass t visitor unseen state context step with
      | .error state => state
      | .ok (state, context, first) => run t visitor unseen state context (first ++ work) := by
  cases step with
  | openScope scope => rw [run]; rfl
  | closeScope => rw [run]; rfl
  | leave => rw [run]; rfl
  | visit id =>
    obtain ⟨state', verdict, hmeet⟩ : ∃ state' verdict,
        meet visitor unseen state id context = (state', verdict) := ⟨_, _, rfl⟩
    rw [run, pass, hmeet]
    unfold meet at hmeet
    simp only [hmeet]
    cases verdict <;> rfl

theorem Step.cost_pos (t : Tree) (step : Step) : 0 < step.cost t := by
  cases step with
  | visit id => exact Nat.zero_lt_of_lt (cost_below t id)
  | _ => exact Nat.one_pos

/-- The steps that a pass puts in front cost less than the one that it takes away. -/
theorem cost_pass {step : Step} {state' : σ} {context' : Context} {first : List Step}
    (h : pass t visitor unseen state context step = .ok (state', context', first)) :
    cost t first < step.cost t := by
  cases step with
  | visit id =>
    rw [pass] at h
    split at h
    · cases h
    · cases h
      exact Step.cost_pos t (.visit id)
    · cases h
      exact cost_below t id
  | _ =>
    cases h
    exact Nat.one_pos

/-- The loop ends after as many passes as its steps cost, with the state that the scan ends in. -/
theorem runFor_eq_some {n : Nat} {work : List Step} (h : cost t work ≤ n) :
    runFor t visitor unseen n state context work =
      some (run t visitor unseen state context work) := by
  induction n generalizing state context work with
  | zero =>
    cases work with
    | nil => simp [runFor, run]
    | cons step work =>
      rw [cost] at h
      have := step.cost_pos t
      omega
  | succ n ih =>
    cases work with
    | nil => simp [runFor, run]
    | cons step work =>
      rw [runFor, run_cons]
      cases hpass : pass t visitor unseen state context step with
      | error last => rfl
      | ok next =>
        obtain ⟨state', context', first⟩ := next
        refine ih ?_
        have := cost_pass hpass
        rw [cost] at h
        rw [cost_append]
        omega

end Loop

/-! ## The walk -/

/-- The state that a walk comes to, be it ended by the visitor or not. -/
def lastState : Except σ σ → σ
  | .ok state => state
  | .error state => state

/-- The walk of a subtree as if nothing stood above it, with its root or without it. -/
def walkFrom (t : Tree) (root : Nat) (showRoot : Bool) (visitor : Visitor σ) (state : σ) :
    Except σ σ :=
  if showRoot then walk t visitor none ⟨[], []⟩ root state
  else
    (t.childIds root).foldlM
      (fun state c => walk t visitor none (Context.within t ⟨[], []⟩ root) c state) state

private theorem foldlM_congr {α β ε : Type} {f g : β → α → Except ε β} {xs : List α}
    (h : ∀ x ∈ xs, ∀ b, f b x = g b x) (b : β) : xs.foldlM f b = xs.foldlM g b := by
  induction xs generalizing b with
  | nil => rfl
  | cons x xs ih =>
    rw [List.foldlM_cons, List.foldlM_cons, h x (by simp)]
    exact bind_congr fun b => ih (fun y hy => h y (by simp [hy])) b

/-- A node is not met again below itself, so that it is passed over makes no difference there. -/
theorem walk_below (t : Tree) (visitor : Visitor σ) {unseen id : Nat} (h : id < unseen)
    (context : Context) (state : σ) :
    walk t visitor (some unseen) context id state = walk t visitor none context id state := by
  induction id using Nat.strongRecOn generalizing context state with
  | ind id ih =>
    have hmeet : meet visitor (some unseen) state id context =
        meet visitor none state id context := by
      simp [meet, Nat.ne_of_gt h]
    have hbelow : ∀ c ∈ t.childIds id, ∀ state,
        walk t visitor (some unseen) (context.within t id) c state =
          walk t visitor none (context.within t id) c state := fun c hc state =>
      ih c (t.childIds_lt hc) (Nat.lt_trans (t.childIds_lt hc) h) _ state
    rw [walk_eq, walk_eq, hmeet]
    simp only [foldlM_congr hbelow]

/-- A scan comes to the state that the recursive walk comes to. -/
theorem scan_eq_walkFrom (t : Tree) (root : Nat) (showRoot : Bool) (visitor : Visitor σ)
    (state : σ) :
    t.scan root showRoot visitor state = lastState (walkFrom t root showRoot visitor state) := by
  have hwalk : walk t visitor (if showRoot then none else some root) ⟨[], []⟩ root state =
      walkFrom t root showRoot visitor state := by
    cases showRoot with
    | true => rfl
    | false =>
      rw [walk_eq]
      simp only [Bool.false_eq_true, if_false, meet, if_true, walkFrom]
      exact foldlM_congr (fun c hc state => walk_below t visitor (t.childIds_lt hc) _ state) state
  rw [scan_eq_walk, hwalk]
  cases walkFrom t root showRoot visitor state <;> rfl

theorem meet_traced (visitor : Visitor σ) (unseen : Option Nat) (state : σ)
    (seen : List (Nat × Context)) (id : Nat) (context : Context) :
    ∃ seen', meet (traced visitor) unseen (state, seen) id context =
      (((meet visitor unseen state id context).1, seen'),
        (meet visitor unseen state id context).2) := by
  unfold meet
  split
  · exact ⟨seen, rfl⟩
  · exact ⟨seen ++ [(id, context)], rfl⟩

theorem pass_traced (t : Tree) (visitor : Visitor σ) (unseen : Option Nat) (state : σ)
    (seen : List (Nat × Context)) (context : Context) (step : Step) :
    ∃ seen', pass t (traced visitor) unseen (state, seen) context step =
      match pass t visitor unseen state context step with
      | .error last => .error (last, seen')
      | .ok (state, context, first) => .ok ((state, seen'), context, first) := by
  cases step with
  | visit id =>
    obtain ⟨seen', htraced⟩ := meet_traced visitor unseen state seen id context
    refine ⟨seen', ?_⟩
    rcases hmeet : meet visitor unseen state id context with ⟨state', verdict⟩
    rw [pass, pass, htraced, hmeet]
    cases verdict <;> rfl
  | _ => exact ⟨seen, rfl⟩

/-- A record of the visits does not change the scan. -/
theorem run_traced (t : Tree) (visitor : Visitor σ) (unseen : Option Nat) (state : σ)
    (seen : List (Nat × Context)) (context : Context) (work : List Step) :
    (run t (traced visitor) unseen (state, seen) context work).1 =
      run t visitor unseen state context work := by
  induction hn : cost t work using Nat.strongRecOn generalizing state seen context work with
  | ind n ih =>
    cases work with
    | nil => rw [run, run]
    | cons step work =>
      obtain ⟨seen', htraced⟩ := pass_traced t visitor unseen state seen context step
      rw [run_cons, run_cons, htraced]
      cases hpass : pass t visitor unseen state context step with
      | error last => rfl
      | ok next =>
        obtain ⟨state', context', first⟩ := next
        refine ih (cost t (first ++ work)) ?_ state' seen' context' (first ++ work) rfl
        have := cost_pass hpass
        rw [cost] at hn
        rw [cost_append]
        omega

/-- What a scan from a root shows with a node: the nodes above it from the root on, and the scopes
that these open. -/
structure SeenFrom (t : Tree) (root id : Nat) (context : Context) : Prop where
  below : id ∈ t.preorder root
  ancestors : (t.ancestors id).reverse = (t.ancestors root).reverse ++ context.ancestors
  scopes : context.scopes = context.ancestors.filterMap (Scope.ofNode? t)

namespace SeenFrom

theorem root (t : Tree) (root : Nat) : SeenFrom t root root ⟨[], []⟩ where
  below := t.mem_preorder_self root
  ancestors := (List.append_nil _).symm
  scopes := rfl

theorem child {t : Tree} (ht : t.Built) {root id c : Nat} {context : Context}
    (h : SeenFrom t root id context) (hc : c ∈ t.childIds id) :
    SeenFrom t root c (context.within t id) where
  below := Tree.mem_preorder_trans h.below (Tree.mem_preorder_of_child hc (t.mem_preorder_self c))
  ancestors := by
    rw [ht.ancestors_child hc, List.reverse_cons, h.ancestors, List.append_assoc, Context.within]
  scopes := by
    rw [Context.within, h.scopes, List.filterMap_append]
    cases hscope : Scope.ofNode? t id <;> simp [hscope]

end SeenFrom

/-- What holds of a state after each of some walks holds after all of them. -/
private theorem lastState_foldlM {α : Type} {P : σ → Prop} {f : σ → α → Except σ σ} {xs : List α}
    (h : ∀ x ∈ xs, ∀ state, P state → P (lastState (f state x))) {state : σ} (hstate : P state) :
    P (lastState (xs.foldlM f state)) := by
  induction xs generalizing state with
  | nil => exact hstate
  | cons x xs ih =>
    have hx := h x (by simp) state hstate
    rw [List.foldlM_cons]
    cases hf : f state x with
    | error last =>
      rw [hf] at hx
      exact hx
    | ok next =>
      rw [hf] at hx
      exact ih (fun y hy => h y (by simp [hy])) hx

/-- All visits that are recorded were made below a root and with what stands above the node from
there on. -/
def AllSeenFrom (t : Tree) (root : Nat) (visits : List (Nat × Context)) : Prop :=
  ∀ visit ∈ visits, SeenFrom t root visit.1 visit.2

theorem walk_seenFrom {t : Tree} (ht : t.Built) (visitor : Visitor σ) {root id : Nat}
    {context : Context} (h : SeenFrom t root id context) {state : σ × List (Nat × Context)}
    (hstate : AllSeenFrom t root state.2) :
    AllSeenFrom t root (lastState (walk t (traced visitor) none context id state)).2 := by
  induction id using Nat.strongRecOn generalizing context state with
  | ind id ih =>
    obtain ⟨state, seen⟩ := state
    have hmeet : meet (traced visitor) none (state, seen) id context =
        (((visitor state id context).1, seen ++ [(id, context)]), (visitor state id context).2) :=
      rfl
    have hnow : AllSeenFrom t root (seen ++ [(id, context)]) := by
      intro visit hvisit
      rcases List.mem_append.mp hvisit with hvisit | hvisit
      · exact hstate visit hvisit
      · rw [List.mem_singleton.mp hvisit]
        exact h
    rw [walk_eq, hmeet]
    cases (visitor state id context).2 with
    | stop => exact hnow
    | skip => exact hnow
    | descend =>
      exact lastState_foldlM (P := fun s : σ × List (Nat × Context) => AllSeenFrom t root s.2)
        (fun c hc state hs => ih c (t.childIds_lt hc) (h.child ht hc) hs) hnow

theorem walkFrom_seenFrom {t : Tree} (ht : t.Built) (root : Nat) (showRoot : Bool)
    (visitor : Visitor σ) (state : σ) :
    AllSeenFrom t root (lastState (walkFrom t root showRoot (traced visitor) (state, []))).2 := by
  have hnone : AllSeenFrom t root [] := fun _ h => by cases h
  cases showRoot with
  | true => exact walk_seenFrom ht visitor (.root t root) hnone
  | false =>
    exact lastState_foldlM (P := fun s : σ × List (Nat × Context) => AllSeenFrom t root s.2)
      (fun c hc state hs => walk_seenFrom ht visitor ((SeenFrom.root t root).child ht hc) hs) hnone

end SpecUpgrade.Scan

namespace SpecUpgrade.Tree

variable {σ : Type}

/-- A scan shows any visitor what the recursive walk of the subtree shows it, and both come to one
state. The visits are made below the first node and with just the nodes that stand between, from the
first node on, and the scopes that these open. The loop that does it ends after at most four passes
for each node of the subtree. -/
theorem scan_does_walk {t : Tree} (h : t.Built) (root : Nat) (showRoot : Bool)
    (visitor : Scan.Visitor σ) (state : σ) :
    let (final, visits) := t.scan root showRoot (Scan.traced visitor) (state, [])
    t.scan root showRoot visitor state = final ∧
      Scan.lastState (Scan.walkFrom t root showRoot visitor state) = final ∧
      Scan.lastState (Scan.walkFrom t root showRoot (Scan.traced visitor) (state, [])) =
        (final, visits) ∧
      (∀ visit ∈ visits, visit.1 ∈ t.preorder root ∧
        (t.ancestors visit.1).reverse = (t.ancestors root).reverse ++ visit.2.ancestors ∧
        visit.2.scopes = visit.2.ancestors.filterMap (Scope.ofNode? t)) ∧
      Scan.runFor t visitor (if showRoot then none else some root) (4 * (t.preorder root).length)
        state ⟨[], []⟩ [.visit root] = some final := by
  obtain ⟨final, visits, hscan⟩ : ∃ final visits,
      t.scan root showRoot (Scan.traced visitor) (state, []) = (final, visits) := ⟨_, _, rfl⟩
  have hfinal : t.scan root showRoot visitor state = final := by
    rw [scan, ← Scan.run_traced t visitor _ state [] _ _, ← scan, hscan]
  have hwalk := Scan.scan_eq_walkFrom t root showRoot (Scan.traced visitor) (state, [])
  rw [hscan] at hwalk ⊢
  refine ⟨hfinal, ?_, hwalk.symm, fun visit hvisit => ?_, ?_⟩
  · rw [← Scan.scan_eq_walkFrom, hfinal]
  · have hseen := Scan.walkFrom_seenFrom h root showRoot visitor state
    rw [← hwalk] at hseen
    obtain ⟨hbelow, hancestors, hscopes⟩ := hseen visit hvisit
    exact ⟨hbelow, hancestors, hscopes⟩
  · have hcost : Scan.cost t [.visit root] = 4 * (t.preorder root).length := by
      simp only [Scan.cost, Scan.Step.cost, Nat.add_zero]
    rw [Scan.runFor_eq_some (Nat.le_of_eq hcost), ← scan, hfinal]

/-- A scan below a block that stands in a sequence. The visitor leaves out what is below the call of
the block and ends the scan at its parameters. -/
theorem scan_does_walk_stopped :
    ∃ t, ofDump "a.rb" "f{g};h" ("(begin @0..6 (block @0..4 (send @0..1 nil :f) (args)" ++
        " (send @2..3 nil :g)) (send @5..6 nil :h))") = .ok t ∧
      t.scan 3 false (Scan.traced fun n _ _ => (n + 1, if n = 0 then .skip else .stop)) (0, []) =
        (2, [(0, ⟨[3], [.plainBlock]⟩), (1, ⟨[3], [.plainBlock]⟩)]) ∧
      Scan.lastState
        (Scan.walkFrom t 3 false (fun n _ _ => (n + 1, if n = 0 then .skip else .stop)) 0) = 2 := by
  have hscan : (ofDump "a.rb" "f{g};h" ("(begin @0..6 (block @0..4 (send @0..1 nil :f) (args)" ++
        " (send @2..3 nil :g)) (send @5..6 nil :h))")).map (fun t =>
      t.scan 3 false (Scan.traced fun n _ _ => (n + 1, if n = 0 then .skip else .stop)) (0, [])) =
        .ok (2, [(0, ⟨[3], [.plainBlock]⟩), (1, ⟨[3], [.plainBlock]⟩)]) := by cbv
  obtain ⟨t, hread, hscan⟩ := map_eq_ok_iff.mp hscan
  have hwalk := scan_does_walk (built_of_ofDump hread) 3 false
    (fun n _ _ => (n + 1, if n = 0 then .skip else .stop)) 0
  rw [hscan] at hwalk
  exact ⟨t, hread, hscan, hwalk.2.1⟩

end SpecUpgrade.Tree
