import SpecUpgrade.Proofs.Outcomes
import SpecUpgrade.Proofs.Probing

/-!
What is asked of a test run and what its answers change. A question is asked about exactly those
nodes whose match needs a method, and the conversion depends on the facts through the answers to
these questions alone. An answer that is not there, or is an error, leaves the decision to the
scopes.
-/

namespace SpecUpgrade

/-! ## Collecting requests -/

namespace Probe

/-- The entry of a registry for a match: the one request that it makes, if it needs a method. -/
def questions? (m : Match) : Option (List (String × Request)) :=
  m.needs?.map fun a => [(a.key, a.request)]

/-- The registry holds just what these matches ask for. -/
structure Holds (requests : Requests) (ms : List Match) : Prop where
  ascending : (requests.map (·.1)).Pairwise (· < ·)
  find?_eq_some_iff : ∀ {node : Nat} {entries : List (String × Request)},
    SortedMap.find? node requests = some entries ↔
      ∃ m ∈ ms, m.node = node ∧ questions? m = some entries

theorem holds_nil : Holds [] [] := ⟨List.Pairwise.nil, by simp [SortedMap.find?]⟩

/-- A match whose node has been asked about asks for the same again. -/
theorem registerMatch_eq_ok (t : Tree) {requests : Requests} {ms : List Match}
    (h : Holds requests ms) {m : Match} (hsame : ∀ k ∈ ms, k.node = m.node → k = m) :
    ∃ requests', registerMatch t requests m = .ok requests' ∧ Holds requests' (ms ++ [m]) := by
  unfold registerMatch
  cases hneeds : m.needs? with
  | none =>
    have hquestions : questions? m = none := by rw [questions?, hneeds]; rfl
    refine ⟨requests, rfl, h.ascending, ?_⟩
    simp [h.find?_eq_some_iff, or_and_right, exists_or, hquestions]
  | some a =>
    have hquestions : questions? m = some [(a.key, a.request)] := by rw [questions?, hneeds]; rfl
    unfold register
    cases hfound : SortedMap.find? m.node requests with
    | some entries =>
      obtain ⟨k, hk, hnode, hkquestions⟩ := h.find?_eq_some_iff.mp hfound
      obtain rfl := hsame k hk hnode
      rw [hquestions] at hkquestions
      obtain rfl := Option.some.inj hkquestions
      refine ⟨requests, by simp [SortedMap.find?], h.ascending, ?_⟩
      intro node entries
      rw [h.find?_eq_some_iff]
      constructor
      · rintro ⟨k', hk', hrest⟩
        exact ⟨k', List.mem_append_left _ hk', hrest⟩
      · rintro ⟨k', hk', hrest⟩
        rcases List.mem_append.mp hk' with hk' | hk'
        · exact ⟨k', hk', hrest⟩
        · rw [List.mem_singleton.mp hk'] at hrest
          exact ⟨k, hk, hrest⟩
    | none =>
      refine ⟨SortedMap.insert m.node [(a.key, a.request)] requests, by
        simp [SortedMap.find?, SortedMap.insert], SortedMap.insert_ascending h.ascending, ?_⟩
      intro node entries
      rw [SortedMap.find?_insert]
      by_cases hnode : node = m.node
      · rw [if_pos hnode]
        constructor
        · intro heq
          exact ⟨m, by simp, hnode.symm, hquestions.trans heq⟩
        · rintro ⟨k, hk, hkn, hke⟩
          have hkm : k = m := by
            rcases List.mem_append.mp hk with hk | hk
            · exact hsame k hk (hkn.trans hnode)
            · exact List.mem_singleton.mp hk
          rw [← hke, hkm, hquestions]
      · rw [if_neg hnode, h.find?_eq_some_iff]
        have hne : ¬ m.node = node := fun heq => hnode heq.symm
        simp [or_and_right, exists_or, hne]

/-- Matches of which those at one node are the same can all be asked about. -/
theorem foldlM_registerMatch_eq_ok (t : Tree) {requests : Requests} {seen ms : List Match}
    (h : Holds requests seen)
    (hsame : ∀ m ∈ seen ++ ms, ∀ k ∈ seen ++ ms, k.node = m.node → k = m) :
    ∃ requests', ms.foldlM (registerMatch t) requests = .ok requests' ∧
      Holds requests' (seen ++ ms) := by
  induction ms generalizing requests seen with
  | nil => exact ⟨requests, rfl, by rwa [List.append_nil]⟩
  | cons m ms ih =>
    obtain ⟨next, hnext, hholds⟩ := registerMatch_eq_ok t h (m := m)
      fun k hk => hsame m (by simp) k (List.mem_append_left _ hk)
    rw [List.append_cons] at hsame
    rw [List.foldlM_cons, hnext, List.append_cons]
    exact ih hholds hsame

theorem collect_eq_ok (t : Tree) (enabled : List Rule) :
    ∃ requests, collect t enabled = .ok requests ∧ Holds requests (Match.all t enabled) := by
  refine foldlM_registerMatch_eq_ok t holds_nil fun m hm k hk hnode => ?_
  have hkat := Tree.at?_of_mem_all hk
  rw [hnode, Tree.at?_of_mem_all hm] at hkat
  exact (Option.some.inj hkat).symm

/-- A question is registered for a node. -/
def Asks (requests : Requests) (node : Nat) (key : String) : Prop :=
  ∃ entries, SortedMap.find? node requests = some entries ∧ (SortedMap.find? key entries).isSome

/-- The questions are those that the matches need answered. -/
theorem Holds.asks_iff {requests : Requests} {ms : List Match} (h : Holds requests ms)
    {node : Nat} {key : String} :
    Asks requests node key ↔ ∃ m ∈ ms, m.node = node ∧ ∃ a, m.needs? = some a ∧ a.key = key := by
  constructor
  · rintro ⟨entries, hfound, hkey⟩
    obtain ⟨m, hm, hnode, hquestions⟩ := h.find?_eq_some_iff.mp hfound
    obtain ⟨a, ha, rfl⟩ := Option.map_eq_some_iff.mp hquestions
    refine ⟨m, hm, hnode, a, ha, ?_⟩
    unfold SortedMap.find? at hkey
    split at hkey
    · rename_i heq
      exact heq.symm
    · cases hkey
  · rintro ⟨m, hm, hnode, a, ha, rfl⟩
    refine ⟨[(a.key, a.request)], h.find?_eq_some_iff.mpr ⟨m, hm, hnode, ?_⟩, ?_⟩
    · rw [questions?, ha, Option.map_some]
    · simp [SortedMap.find?]

/-- Something is asked if a match needs an answer. -/
theorem Holds.isEmpty_eq_false {requests : Requests} {ms : List Match} (h : Holds requests ms)
    {m : Match} (hm : m ∈ ms) {a : Availability} (ha : m.needs? = some a) :
    requests.isEmpty = false := by
  obtain ⟨entries, hfound, -⟩ := h.asks_iff.mpr ⟨m, hm, rfl, a, ha, rfl⟩
  cases requests with
  | nil => cases hfound
  | cons => rfl

/-- What a match asks is settled by its rule. -/
theorem questions?_eq_some_iff {m : Match} {entries : List (String × Request)} :
    questions? m = some entries ↔
      (m.rule = .should ∧
        entries = [("expect_available?", ⟨.context, "respond_to?(:expect, true)"⟩)]) ∨
      (m.rule = .stub ∧
        entries = [("allow_available?", ⟨.context, "respond_to?(:allow, true)"⟩)]) := by
  have hexpect : (Availability.expect.key, Availability.expect.request) =
      ("expect_available?", ⟨.context, "respond_to?(:expect, true)"⟩) := by decide
  have hallow : (Availability.allow.key, Availability.allow.request) =
      ("allow_available?", ⟨.context, "respond_to?(:allow, true)"⟩) := by decide
  cases m <;> simp [questions?, Match.needs?, Match.rule, hexpect, hallow, eq_comm]

end Probe

/-! ## Answers that count -/

/-- Something recorded is a value that counts as false. -/
def Facts.Denies (f : Facts) (t : Tree) (node : Nat) (key : String) : Prop :=
  ∃ fact, f.fact? t node key = some fact ∧ fact.error = none ∧
    (fact.result = .null ∨ fact.result = .bool false)

/-- Nothing is recorded, or an error. -/
def Facts.Silent (f : Facts) (t : Tree) (node : Nat) (key : String) : Prop :=
  ∀ fact, f.fact? t node key = some fact → fact.error.isSome

namespace Availability

/-- A method cannot be called where the recorded answer denies it, or where there is no answer and
the scopes deny it. -/
theorem holds_eq_false_iff (a : Availability) (t : Tree) (f : Facts) (node : Nat) :
    a.holds t f node = false ↔
      f.Denies t node a.key ∨ f.Silent t node a.key ∧ t.inExampleContext node = false := by
  unfold holds Facts.truthy? Facts.value? Facts.Denies Facts.Silent
  rcases f.fact? t node a.key with - | ⟨result, context, - | error⟩
  · simp
  · cases result <;> simp
  · simp

/-- Only the truth of one recorded answer counts. -/
theorem holds_congr {a : Availability} {t : Tree} {f g : Facts} {node : Nat}
    (h : f.truthy? t node a.key = g.truthy? t node a.key) :
    a.holds t f node = a.holds t g node := by
  rw [holds, holds, h]

end Availability

namespace Match

variable {t : Tree} {f g : Facts}

/-- Facts with the same answer to what a match asks have the same effect on it. -/
theorem obstacle?_congr_facts {m : Match}
    (h : ∀ a ∈ m.needs?, f.truthy? t m.node a.key = g.truthy? t m.node a.key)
    (accepted : List Edit) : m.obstacle? t f accepted = m.obstacle? t g accepted := by
  have hneeds : m.needs?.filter (!·.holds t f m.node) = m.needs?.filter (!·.holds t g m.node) := by
    cases hm : m.needs? with
    | none => rfl
    | some a => simp only [Option.filter_some, Availability.holds_congr (h a hm)]
  rw [obstacle?, obstacle?, apply, apply, hneeds]

theorem outcomes_congr_facts {ms : List Match}
    (h : ∀ m ∈ ms, ∀ a ∈ m.needs?, f.truthy? t m.node a.key = g.truthy? t m.node a.key)
    (accepted : List Edit) : outcomes t f accepted ms = outcomes t g accepted ms := by
  induction ms generalizing accepted with
  | nil => rfl
  | cons m ms ih =>
    rw [outcomes, outcomes, obstacle?_congr_facts (h m (by simp)) accepted]
    exact congrArg _ (ih (fun k hk => h k (by simp [hk])) _)

/-- A match is noted as one that lacks a method exactly when it needs one that cannot be called. -/
theorem obstacle?_unavailable_iff {m : Match} {accepted : List Edit} :
    (∃ o, m.obstacle? t f accepted = some o ∧ o.kind = "context_unavailable") ↔
      ∃ a, m.needs? = some a ∧ a.holds t f m.node = false := by
  unfold obstacle? apply
  cases hlacks : m.needs?.filter (!·.holds t f m.node) with
  | some a =>
    obtain ⟨hneeds, hholds⟩ := Option.filter_eq_some_iff.mp hlacks
    exact ⟨fun _ => ⟨a, hneeds, by simpa using hholds⟩, fun _ => ⟨_, rfl, rfl⟩⟩
  | none =>
    have hnone : ¬ ∃ a, m.needs? = some a ∧ a.holds t f m.node = false := by
      rintro ⟨a, hneeds, hholds⟩
      exact Option.filter_eq_none_iff.mp hlacks a hneeds (by simp [hholds])
    refine iff_of_false ?_ hnone
    rintro ⟨o, ho, hkind⟩
    cases hsubmit : Revision.submitAll ⟨t.source, accepted⟩ (m.edits t) with
    | ok r => simp [hsubmit] at ho
    | error refusal =>
      simp only [hsubmit, Option.some.injEq] at ho
      subst ho
      exact absurd hkind (by simp [Obstacle.kind])

end Match

namespace Tree

/-- A conversion does not change with facts that answer its questions in the same way. -/
theorem convert_congr {t : Tree} {enabled : List Rule} {f g : Facts}
    (h : ∀ m ∈ Match.all t enabled, ∀ a ∈ m.needs?,
      f.truthy? t m.node a.key = g.truthy? t m.node a.key) :
    t.convert enabled f = t.convert enabled g := by
  have houtcomes : t.outcomes enabled f = t.outcomes enabled g := Match.outcomes_congr_facts h []
  rw [convert_eq, convert_eq, progress_eq, progress_eq, houtcomes]

end Tree

/-- The requests of a tree can always be collected: one for each node at which a `should` or a
`stub` was found, and none for other nodes. The conversion does not depend on more than the answers
to them. Where one is asked, a lacking method is noted exactly when the answer recorded is null or
false, or when there is no answer and the scopes around the node deny the method. -/
theorem Probe.collect_asks_what_counts (t : Tree) (enabled : List Rule) :
    ∃ requests, collect t enabled = .ok requests ∧
      (requests.map (·.1)).Pairwise (· < ·) ∧
      (∀ node entries, SortedMap.find? node requests = some entries ↔
        ∃ m ∈ Match.all t enabled, m.node = node ∧
          ((m.rule = .should ∧
              entries = [("expect_available?", ⟨.context, "respond_to?(:expect, true)"⟩)]) ∨
            (m.rule = .stub ∧
              entries = [("allow_available?", ⟨.context, "respond_to?(:allow, true)"⟩)]))) ∧
      (∀ f g : Facts,
        (∀ node key, Asks requests node key → f.truthy? t node key = g.truthy? t node key) →
        t.convert enabled f = t.convert enabled g) ∧
      ∀ (f : Facts) (node : Nat) (key : String), Asks requests node key →
        (∃ o ∈ t.outcomes enabled f, o.found.node = node) ∧
        (t.convert enabled f).notices = (t.outcomes enabled f).filterMap (·.notice? t) ∧
        ∀ o ∈ t.outcomes enabled f, o.found.node = node →
          ((∃ notice, o.notice? t = some notice ∧ notice.kind = "context_unavailable") ↔
            f.Denies t node key ∨ f.Silent t node key ∧ t.inExampleContext node = false) := by
  obtain ⟨requests, hcollect, hholds⟩ := collect_eq_ok t enabled
  refine ⟨requests, hcollect, hholds.ascending, fun node entries => ?_, fun f g hagree => ?_,
    fun f node key hasks => ⟨?_, ?_, fun o ho hnode => ?_⟩⟩
  · simp only [hholds.find?_eq_some_iff, questions?_eq_some_iff]
  · exact Tree.convert_congr fun m hm a ha =>
      hagree m.node a.key (hholds.asks_iff.mpr ⟨m, hm, rfl, a, ha, rfl⟩)
  · obtain ⟨m, hm, hnode, -⟩ := hholds.asks_iff.mp hasks
    rw [← Match.map_found_outcomes t f [] (Match.all t enabled)] at hm
    obtain ⟨o, ho, rfl⟩ := List.mem_map.mp hm
    exact ⟨o, ho, hnode⟩
  · rw [Tree.convert_eq, Tree.progress_eq]
  · -- the match at the node is the one that asked
    obtain ⟨m, hm, hmnode, a, ha, rfl⟩ := hholds.asks_iff.mp hasks
    have hfound : o.found = m := by
      have hat := Tree.at?_of_mem_all (Tree.found_mem_all ho)
      rw [hnode, ← hmnode, Tree.at?_of_mem_all hm] at hat
      exact (Option.some.inj hat).symm
    obtain ⟨before, behind, -, hobstacle⟩ := Match.mem_outcomes ho
    rw [← Availability.holds_eq_false_iff]
    have hnotice : (∃ notice, o.notice? t = some notice ∧ notice.kind = "context_unavailable") ↔
        ∃ ob, o.obstacle? = some ob ∧ ob.kind = "context_unavailable" := by
      simp [Match.Outcome.notice?]
    rw [hnotice, hobstacle, hfound, Match.obstacle?_unavailable_iff, hmnode]
    simp [ha]

end SpecUpgrade
