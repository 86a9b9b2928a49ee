import SpecUpgrade.Proofs.Kinship
import SpecUpgrade.Proofs.Requests

/-!
What decides whether code runs as part of an example. The last anchor counts, and what is open below
it: a class there says no, and a method or a block that is opened further inside does not take a yes
back. A match below a class so lacks the method that it needs and is left alone.
-/

namespace SpecUpgrade

namespace Scope

/-! ## Anchors -/

/-- The scopes below which the question is asked anew. -/
def isAnchor : Scope → Bool
  | exampleGroup | configuration | moduleBody => true
  | _ => false

theorem isAnchor_of_isClassLike {s : Scope} (h : s.isClassLike = true) : s.isAnchor = false := by
  cases s <;> first | rfl | cases h

theorem not_mem_of_isAnchor {anchor : Scope} {scopes : List Scope}
    (hanchor : anchor.isAnchor = true)
    (h : ∀ s ∈ scopes, s.isAnchor = false) : anchor ∉ scopes := fun hmem => by
  rw [h anchor hmem] at hanchor
  cases hanchor

theorem sinceLast_of_not_mem {anchor : Scope} {scopes : List Scope} (h : anchor ∉ scopes) :
    sinceLast anchor scopes = none := by
  induction scopes with
  | nil => rfl
  | cons s rest ih =>
    rw [List.mem_cons, not_or] at h
    rw [sinceLast, ih h.2, if_neg (Ne.symm h.1)]

/-- Scopes further inside that are no anchors leave the anchor where it is. -/
theorem sinceLast_append_of_not_mem {anchor : Scope} {inner : List Scope} (h : anchor ∉ inner)
    (outer : List Scope) :
    sinceLast anchor (outer ++ inner) = (sinceLast anchor outer).map (· ++ inner) := by
  induction outer with
  | nil => exact sinceLast_of_not_mem h
  | cons s outer ih =>
    rw [List.cons_append, sinceLast, sinceLast, ih]
    cases sinceLast anchor outer with
    | some found => rfl
    | none => by_cases hs : s = anchor <;> simp [hs]

/-- With scopes further inside that are no anchors the same rule decides, and it looks at these as
well. -/
theorem inExampleContext_append {inner : List Scope} (hinner : ∀ s ∈ inner, s.isAnchor = false)
    (outer : List Scope) :
    inExampleContext (outer ++ inner) =
      match sinceLast exampleGroup outer with
      | some rest => runsInInstance (rest ++ inner)
      | none =>
        match sinceLast configuration outer with
        | some rest => runsInInstance (rest ++ inner)
        | none =>
          if (outer ++ inner).head? = some method then !(outer ++ inner).tail.any isClassLike
          else
            match sinceLast moduleBody outer with
            | some rest => !(rest ++ inner).any isClassLike && (rest ++ inner).contains method
            | none => false := by
  have hsince : ∀ anchor : Scope, anchor.isAnchor = true → sinceLast anchor (outer ++ inner) =
      (sinceLast anchor outer).map (· ++ inner) := fun anchor hanchor =>
    sinceLast_append_of_not_mem (not_mem_of_isAnchor hanchor hinner) outer
  rw [inExampleContext, hsince exampleGroup rfl, hsince configuration rfl, hsince moduleBody rfl]
  cases sinceLast exampleGroup outer <;> cases sinceLast configuration outer <;>
    cases sinceLast moduleBody outer <;> rfl

/-! ## Classes and what is opened inside -/

theorem runsInInstance_of_class {rest : List Scope} (h : rest.any isClassLike = true) :
    runsInInstance rest = false := by
  rw [runsInInstance, h]
  rfl

/-- A class with no anchor below it keeps code from running as part of an example, whatever is open
around the class. -/
theorem inExampleContext_of_class {inner : List Scope} (hinner : ∀ s ∈ inner, s.isAnchor = false)
    {c : Scope} (hc : c ∈ inner) (hclass : c.isClassLike = true) (outer : List Scope) :
    inExampleContext (outer ++ inner) = false := by
  have hany : ∀ rest : List Scope, (rest ++ inner).any isClassLike = true := fun rest =>
    List.any_of_mem (List.mem_append_right rest hc) hclass
  rw [inExampleContext_append hinner]
  cases sinceLast exampleGroup outer with
  | some rest => exact runsInInstance_of_class (hany rest)
  | none =>
    cases sinceLast configuration outer with
    | some rest => exact runsInInstance_of_class (hany rest)
    | none =>
      by_cases hhead : (outer ++ inner).head? = some method
      · -- the method at the outside is not the class, so the class is open in it
        obtain ⟨rest, hrest⟩ := List.head?_eq_some_iff.mp hhead
        have hmem : c ∈ method :: rest := hrest ▸ List.mem_append_right outer hc
        have hne : c ≠ method := by
          rintro rfl
          cases hclass
        have htail : rest.any isClassLike = true :=
          List.any_of_mem ((List.mem_cons.mp hmem).resolve_left hne) hclass
        simp only [hrest, List.head?_cons, if_true, List.tail_cons, htail, Bool.not_true]
      · simp only [if_neg hhead]
        cases sinceLast moduleBody outer with
        | some rest => simp only [hany rest, Bool.not_true, Bool.false_and]
        | none => rfl

theorem runsInInstance_concat {rest : List Scope} (h : runsInInstance rest = true) {s : Scope}
    (hs : s.isClassLike = false) : runsInInstance (rest ++ [s]) = true := by
  simp only [runsInInstance, Bool.and_eq_true, Bool.not_eq_true', List.any_append] at h ⊢
  simp [h.1, h.2, hs]

/-- A scope that is opened inside and is neither an anchor nor a class does not take it back that code
runs as part of an example. -/
theorem inExampleContext_concat {scopes : List Scope} (h : inExampleContext scopes = true)
    {s : Scope} (hanchor : s.isAnchor = false) (hs : s.isClassLike = false) :
    inExampleContext (scopes ++ [s]) = true := by
  rw [inExampleContext_append (by simpa using hanchor)]
  rw [inExampleContext] at h
  cases hgroup : sinceLast exampleGroup scopes with
  | some rest =>
    rw [hgroup] at h
    exact runsInInstance_concat h hs
  | none =>
    rw [hgroup] at h
    cases hconfig : sinceLast configuration scopes with
    | some rest =>
      rw [hconfig] at h
      exact runsInInstance_concat h hs
    | none =>
      rw [hconfig] at h
      cases scopes with
      | nil => cases h
      | cons first rest =>
        by_cases hfirst : first = method
        · subst hfirst
          simp only [List.head?_cons, if_true, List.tail_cons] at h
          simpa [hs] using h
        · simp only [List.head?_cons, Option.some.injEq, hfirst, if_false] at h
          simp only [List.cons_append, List.head?_cons, Option.some.injEq, hfirst, if_false]
          cases hmodule : sinceLast moduleBody (first :: rest) with
          | some rest =>
            rw [hmodule] at h
            obtain ⟨hclass, hmethod⟩ := Bool.and_eq_true_iff.mp h
            simp only [Bool.not_eq_true'] at hclass
            simp [List.any_append, hs, hclass, List.contains_iff_mem.mp hmethod]
          | none =>
            rw [hmodule] at h
            cases h

end Scope

/-! ## Matches that lack a method -/

namespace Match

variable {t : Tree} {facts : Facts}

/-- What a match needs cannot be called where it stands. -/
def Lacks (t : Tree) (facts : Facts) (m : Match) : Prop :=
  ∃ a, m.needs? = some a ∧ a.holds t facts m.node = false

theorem Lacks.apply_eq {m : Match} (h : m.Lacks t facts) :
    ∃ method, ∀ r : Revision, m.apply t facts r = .error (.unavailable m.rule method) := by
  obtain ⟨a, hneeds, hholds⟩ := h
  refine ⟨a.method, fun r => ?_⟩
  rw [apply, hneeds, Option.filter_some, hholds]
  rfl

theorem Lacks.step {m : Match} (h : m.Lacks t facts) (p : Progress) :
    (p.step t facts m).revision = p.revision ∧ (p.step t facts m).conversions = p.conversions := by
  obtain ⟨method, happly⟩ := h.apply_eq
  rw [Progress.step, happly]
  exact ⟨rfl, rfl⟩

/-- Steps from the same text and the same conversions come to the same text and conversions. -/
theorem step_congr (t : Tree) (facts : Facts) {p q : Progress} (hrevision : p.revision = q.revision)
    (hconversions : p.conversions = q.conversions) (m : Match) :
    (p.step t facts m).revision = (q.step t facts m).revision ∧
      (p.step t facts m).conversions = (q.step t facts m).conversions := by
  rw [Progress.step, Progress.step, hrevision, hconversions]
  cases m.apply t facts q.revision <;> exact ⟨rfl, rfl⟩

/-- A match that lacks a method may as well not be there, but for the notice of it. -/
theorem Lacks.foldl_step {m : Match} (h : m.Lacks t facts) (ms : List Match) {p q : Progress}
    (hrevision : p.revision = q.revision) (hconversions : p.conversions = q.conversions) :
    let all := ms.foldl (Progress.step t facts) p
    let others := (ms.filter (· ≠ m)).foldl (Progress.step t facts) q
    all.revision = others.revision ∧ all.conversions = others.conversions := by
  induction ms generalizing p q with
  | nil => exact ⟨hrevision, hconversions⟩
  | cons k ms ih =>
    by_cases hk : k = m
    · obtain ⟨hsame, hsame'⟩ := hk ▸ h.step p
      rw [List.filter_cons_of_neg (by simpa using hk)]
      exact ih (hsame.trans hrevision) (hsame'.trans hconversions)
    · obtain ⟨hsame, hsame'⟩ := step_congr t facts hrevision hconversions k
      rw [List.filter_cons_of_pos (by simpa using hk)]
      exact ih hsame hsame'

/-- A match is left alone. The conversion comes to the text and the conversions that it comes to
without the match, and the match is noted as one that lacks a method. -/
structure LeftAlone (t : Tree) (enabled : List Rule) (facts : Facts) (m : Match) : Prop where
  source :
    let others := (all t enabled).filter (· ≠ m)
    (t.convert enabled facts).source =
      (others.foldl (Progress.step t facts) ⟨.ofSource t.source, [], []⟩).revision.render
  conversions :
    let others := (all t enabled).filter (· ≠ m)
    (t.convert enabled facts).conversions =
      (others.foldl (Progress.step t facts) ⟨.ofSource t.source, [], []⟩).conversions
  noted : ∃ notice ∈ (t.convert enabled facts).notices, notice.kind = "context_unavailable" ∧
    notice.rule = m.rule.name ∧
    (⟨notice.line, notice.col⟩ : Position) = Position.ofOffset t.source (t.range m.node).start

theorem Lacks.leftAlone {enabled : List Rule} {m : Match} (h : m.Lacks t facts)
    (hm : m ∈ all t enabled) : m.LeftAlone t enabled facts where
  source := by
    have hsame := h.foldl_step (all t enabled) (p := ⟨.ofSource t.source, [], []⟩) rfl rfl
    exact congrArg Revision.render hsame.1
  conversions := (h.foldl_step (all t enabled) (p := ⟨.ofSource t.source, [], []⟩) rfl rfl).2
  noted := by
    rw [← map_found_outcomes t facts [] (all t enabled)] at hm
    obtain ⟨o, ho, rfl⟩ := List.mem_map.mp hm
    obtain ⟨before, behind, -, hobstacle⟩ := mem_outcomes ho
    obtain ⟨method, happly⟩ := h.apply_eq
    rw [obstacle?, happly] at hobstacle
    have hnotice : o.notice? t = some ⟨"context_unavailable", o.found.rule.name,
        (Obstacle.unavailable o.found.rule method).message, (o.place t).line, (o.place t).col⟩ := by
      rw [Outcome.notice?, hobstacle]
      rfl
    rw [Tree.convert_eq, Tree.progress_eq]
    exact ⟨_, List.mem_filterMap.mpr ⟨o, ho, hnotice⟩, rfl, rfl, rfl⟩

end Match

/-! ## Classes above a node -/

namespace Tree

variable {t : Tree}

/-- The nodes above a node that stands above another end the list of those above the other. -/
theorem exists_ancestors_eq {id a : Nat} (h : a ∈ t.ancestors id) :
    ∃ between, t.ancestors id = between ++ a :: t.ancestors a ∧
      ∀ b ∈ between, a ∈ t.ancestors b := by
  fun_induction t.ancestors id with
  | case1 id hp => cases h
  | case2 id p hp ih =>
    rcases List.mem_cons.mp h with rfl | h
    · exact ⟨[], rfl, by simp⟩
    · obtain ⟨between, heq, hbetween⟩ := ih h
      refine ⟨p :: between, by rw [heq, List.cons_append], ?_⟩
      simpa using ⟨h, hbetween⟩

theorem ofNode?_of_class {id : Nat} (h : t.kind id = "class" ∨ t.kind id = "sclass") :
    ∃ c, Scope.ofNode? t id = some c ∧ c.isClassLike = true := by
  unfold Scope.ofNode?
  rcases h with h | h <;> rw [h]
  · exact ⟨.classBody, rfl, rfl⟩
  · exact ⟨.singletonClass, rfl, rfl⟩

/-- Code below a class, with no example group, configuration block or module in between, does not run
as part of an example. -/
theorem inExampleContext_below_class {id a : Nat} (ha : a ∈ t.ancestors id)
    (hclass : t.kind a = "class" ∨ t.kind a = "sclass")
    (hbetween : ∀ b ∈ t.ancestors id, a ∈ t.ancestors b →
      ∀ s, Scope.ofNode? t b = some s → s.isAnchor = false) :
    t.inExampleContext id = false := by
  obtain ⟨between, hancestors, habove⟩ := exists_ancestors_eq ha
  obtain ⟨c, hc, hlike⟩ := ofNode?_of_class hclass
  have hscopes : t.scopesAt id = t.scopesAt a ++
      c :: (between.filterMap (Scope.ofNode? t)).reverse := by
    simp [scopesAt, hancestors, hc]
  rw [inExampleContext, hscopes]
  refine Scope.inExampleContext_of_class (fun s hs => ?_) List.mem_cons_self hlike _
  rcases List.mem_cons.mp hs with rfl | hs
  · exact Scope.isAnchor_of_isClassLike hlike
  · obtain ⟨b, hb, hs⟩ := List.mem_filterMap.mp (List.mem_reverse.mp hs)
    exact hbetween b (hancestors ▸ List.mem_append_left _ hb) (habove b hb) s hs

/-- A `should` or a `stub` where the scopes say no is left alone, unless an answer is recorded. -/
theorem leftAlone_of_silent {enabled : List Rule} {facts : Facts} {m : Match}
    (hm : m ∈ Match.all t enabled) (hcontext : t.inExampleContext m.node = false)
    (hrule : m.rule = .should ∧ facts.Silent t m.node "expect_available?" ∨
      m.rule = .stub ∧ facts.Silent t m.node "allow_available?") :
    m.LeftAlone t enabled facts := by
  have hlacks : ∀ a : Availability, m.needs? = some a → facts.Silent t m.node a.key →
      m.Lacks t facts := fun a hneeds hsilent =>
    ⟨a, hneeds, (a.holds_eq_false_iff t facts m.node).mpr (Or.inr ⟨hsilent, hcontext⟩)⟩
  refine Match.Lacks.leftAlone ?_ hm
  rcases hrule with ⟨hrule, hsilent⟩ | ⟨hrule, hsilent⟩
  · cases m with
    | should => exact hlacks .expect rfl hsilent
    | stub => cases hrule
    | beClose => cases hrule
  · cases m with
    | should => cases hrule
    | stub => exact hlacks .allow rfl hsilent
    | beClose => cases hrule

/-- A class keeps all that is below it out of the examples around it, unless an anchor stands in
between; and a method or a block that is opened in an example stays part of it. So what a `should` or
a `stub` below a class needs is not there, and without a recorded answer it is left alone. -/
theorem class_ends_example_context :
    (∀ (outer inner : List Scope) (c : Scope), c.isClassLike = true →
      (∀ s ∈ inner, s.isAnchor = false) → Scope.inExampleContext (outer ++ [c] ++ inner) = false) ∧
    (∀ (scopes : List Scope) (s : Scope),
      s = .method ∨ s = .singletonMethod ∨ s.isBlockLike = true →
        Scope.inExampleContext scopes = true → Scope.inExampleContext (scopes ++ [s]) = true) ∧
    ∀ (t : Tree) (id a : Nat), a ∈ t.ancestors id → (t.kind a = "class" ∨ t.kind a = "sclass") →
      (∀ b ∈ t.ancestors id, a ∈ t.ancestors b →
        ∀ s, Scope.ofNode? t b = some s → s.isAnchor = false) →
      t.inExampleContext id = false ∧
        ∀ (enabled : List Rule) (facts : Facts), ∀ m ∈ Match.all t enabled, m.node = id →
          (m.rule = .should ∧ facts.Silent t id "expect_available?" ∨
            m.rule = .stub ∧ facts.Silent t id "allow_available?") →
          m.LeftAlone t enabled facts := by
  refine ⟨fun outer inner c hclass hinner => ?_, fun scopes s hs h => ?_,
    fun t id a ha hclass hbetween => ?_⟩
  · have hall : ∀ s ∈ c :: inner, s.isAnchor = false := by
      rintro s (_ | ⟨_, hs⟩)
      · exact Scope.isAnchor_of_isClassLike hclass
      · exact hinner s hs
    rw [List.append_assoc, List.singleton_append]
    exact Scope.inExampleContext_of_class hall List.mem_cons_self hclass outer
  · refine Scope.inExampleContext_concat h ?_ ?_
    all_goals cases s <;> first | rfl | simp [Scope.isBlockLike] at hs
  · have hcontext := inExampleContext_below_class ha hclass hbetween
    refine ⟨hcontext, ?_⟩
    rintro enabled facts m hm rfl hrule
    exact leftAlone_of_silent hm hcontext hrule

set_option maxRecDepth 2048 in
/-- An expectation in a class that stands in an example group. -/
theorem class_ends_example_context_nested :
    ∃ t m, ofDump "a.rb" "x.should y"
        "(block (send nil :describe) (a) (class (send @0..10 (x @0..1) :should (y))))" = .ok t ∧
      m ∈ Match.all t [.should] ∧ m.node = 4 ∧ t.ancestors 4 = [5, 6] ∧ t.kind 5 = "class" ∧
      t.inExampleContext 4 = false ∧ m.LeftAlone t [.should] .empty := by
  have hcheck : (ofDump "a.rb" "x.should y"
      "(block (send nil :describe) (a) (class (send @0..10 (x @0..1) :should (y))))").map (fun t =>
        ((t.kind 4, t.methodName? 4, t.receiver? 4, (t.arguments 4).length, (t.selector? 4).isSome),
          t.nodesInOrder, t.ancestors 4, t.ancestors 5, t.ancestors 6, t.kind 5)) =
      .ok (("send", some "should", some 2, 1, true), [6, 0, 1, 5, 4, 2, 3], [5, 6], [6], [],
        "class") := by cbv
  obtain ⟨t, hread, hcheck⟩ := map_eq_ok_iff.mp hcheck
  simp only [Prod.mk.injEq] at hcheck
  obtain ⟨⟨hsend, hname, hreceiver, hone, hselector⟩, horder, habove, hclass, hgroup, hkind⟩ :=
    hcheck
  obtain ⟨s, hs⟩ := Option.isSome_iff_exists.mp hselector
  obtain ⟨tail, htail⟩ : ∃ tail, t.tail? 4 = some tail := ⟨_, tail?_of_selector? hreceiver hs⟩
  have hmatch : Match.should? t 4 = some (.should 4 2 tail false) := by
    simp [Match.should?, hsend, hname, Match.polarity?, hreceiver, hone, htail]
  have hm : .should 4 2 tail false ∈ Match.all t [.should] := by
    refine List.mem_filterMap.mpr ⟨4, by rw [horder]; decide, ?_⟩
    rw [Match.at?, List.findSome?_cons, Match.ofRule?, hmatch]
  have hbetween : ∀ b ∈ t.ancestors 4, 5 ∈ t.ancestors b →
      ∀ s, Scope.ofNode? t b = some s → s.isAnchor = false := by
    rw [habove]
    simp [hclass, hgroup]
  obtain ⟨hcontext, halone⟩ := class_ends_example_context.2.2 t 4 5 (by simp [habove])
    (Or.inl hkind) hbetween
  exact ⟨t, _, hread, hm, rfl, habove, hkind, hcontext,
    halone [.should] .empty _ hm rfl (Or.inl ⟨rfl, fun _ h => by cases h⟩)⟩

end Tree

end SpecUpgrade
