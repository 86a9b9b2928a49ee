import Mathlib
import SpecUpgrade.Proofs.Arena
import SpecUpgrade.Rule.Conversion

/-!
Enabled rules count as a set. No call has the shape of two rules, so a list of rules picks the
matches of its rules out of all matches, whatever their order in the list and however often they
stand there.
-/

namespace SpecUpgrade

/-- The rule that is about the calls of a method. -/
def Rule.ofMethod? : String → Option Rule
  | "should" | "should_not" => some should
  | "stub" | "stub!" => some stub
  | "be_close" => some beClose
  | _ => none

theorem Rule.mem_all (rule : Rule) : rule ∈ all := by
  cases rule <;> simp [all]

namespace Match

variable {t : Tree} {id : Nat} {rule rule' : Rule} {enabled : List Rule} {m m' : Match}

/-- A rule claims calls of its own methods, and its matches say whose they are. -/
theorem methodName?_of_ofRule? (h : ofRule? t id rule = some m) :
    m.rule = rule ∧ (t.methodName? id).bind Rule.ofMethod? = some rule := by
  cases rule with
  | should =>
    simp only [ofRule?, should?, Option.bind_eq_bind, Option.bind_eq_some_iff, Option.pure_def,
      Option.some.injEq] at h
    obtain ⟨-, -, name, hname, negative, hpolarity, -, -, -, -, -, -, rfl⟩ := h
    refine ⟨rfl, ?_⟩
    rw [hname]
    unfold polarity? at hpolarity
    split at hpolarity <;> first | rfl | cases hpolarity
  | stub =>
    simp only [ofRule?, stub?, Option.bind_eq_bind, Option.bind_eq_some_iff, Option.pure_def] at h
    obtain ⟨-, -, name, hname, _, hguard, _, -, h⟩ := h
    have hstub : name = "stub" ∨ name = "stub!" := by simpa [Option.guard_eq_some'] using hguard
    split at h
    · simp only [Option.bind_eq_some_iff, Option.some.injEq] at h
      obtain ⟨-, -, -, -, rfl⟩ := h
      refine ⟨rfl, ?_⟩
      rcases hstub with rfl | rfl <;> rw [hname] <;> rfl
    · cases h
  | beClose =>
    simp only [ofRule?, beClose?, Option.bind_eq_bind, Option.bind_eq_some_iff,
      Option.pure_def] at h
    obtain ⟨-, -, _, hguard, -, -, h⟩ := h
    have hname : t.methodName? id = some "be_close" := by simpa [Option.guard_eq_some'] using hguard
    split at h
    · cases h
      exact ⟨rfl, by rw [hname]; rfl⟩
    · cases h

/-- A node is claimed by one rule at most. -/
theorem rule_unique (h : ofRule? t id rule = some m) (h' : ofRule? t id rule' = some m') :
    rule = rule' :=
  Option.some.inj ((methodName?_of_ofRule? h).2.symm.trans (methodName?_of_ofRule? h').2)

/-- The first enabled rule that claims a node is the only one, so a match is found exactly when its
rule is enabled. -/
theorem at?_eq_some_iff :
    at? t enabled id = some m ↔ m.rule ∈ enabled ∧ ofRule? t id m.rule = some m := by
  constructor
  · intro h
    obtain ⟨rule, hrule, hclaims⟩ := List.exists_of_findSome?_eq_some h
    obtain rfl := (methodName?_of_ofRule? hclaims).1
    exact ⟨hrule, hclaims⟩
  · rintro ⟨hrule, hclaims⟩
    cases hat : at? t enabled id with
    | none => simp [List.findSome?_eq_none_iff.mp hat m.rule hrule] at hclaims
    | some m' =>
      obtain ⟨rule', -, hclaims'⟩ := List.exists_of_findSome?_eq_some hat
      obtain rfl := rule_unique hclaims hclaims'
      exact hclaims'.symm.trans hclaims

theorem at?_eq_filter (t : Tree) (enabled : List Rule) (id : Nat) :
    at? t enabled id = (at? t Rule.all id).filter fun m => decide (m.rule ∈ enabled) := by
  apply Option.ext
  intro m
  simp only [Option.filter_eq_some_iff, at?_eq_some_iff, Rule.mem_all, true_and,
    decide_eq_true_eq]
  exact and_comm

/-- Enabling rules leaves their matches, in the order in which all matches stand. -/
theorem all_eq_filter (t : Tree) (enabled : List Rule) :
    all t enabled = (all t Rule.all).filter fun m => decide (m.rule ∈ enabled) := by
  unfold all
  rw [List.filter_filterMap]
  exact List.filterMap_congr fun id _ => at?_eq_filter t enabled id

/-- Neither the order nor the repetition of enabled rules counts: the same matches are found in the
same order, the same is asked of a test run, and the conversion is the same. -/
theorem enabled_as_set (t : Tree) (facts : Facts) {enabled enabled' : List Rule}
    (h : ∀ rule, rule ∈ enabled ↔ rule ∈ enabled') :
    all t enabled = all t enabled' ∧
      Probe.collect t enabled = Probe.collect t enabled' ∧
      t.convert enabled facts = t.convert enabled' facts := by
  have hall : all t enabled = all t enabled' := by
    rw [all_eq_filter t enabled, all_eq_filter t enabled']
    simp only [h]
  exact ⟨hall, by rw [Probe.collect, Probe.collect, hall], by rw [Tree.convert, Tree.convert, hall]⟩

/-- A comparison, with its rule named twice and in another place. -/
theorem enabled_as_set_repeated :
    ∃ t, Tree.ofDump "a.rb" "be_close(1,2)"
        "(send @0..13 nil :be_close (i @9..10) (i @11..12))" = .ok t ∧
      (all t [.beClose, .stub, .beClose]).map (·.rule) = [.beClose] ∧
      all t [.beClose, .stub, .beClose] = all t [.stub, .beClose] ∧
      t.convert [.beClose, .stub, .beClose] .empty = t.convert [.stub, .beClose] .empty := by
  have hcheck : (Tree.ofDump "a.rb" "be_close(1,2)"
      "(send @0..13 nil :be_close (i @9..10) (i @11..12))").map
        (fun t => (all t [.beClose, .stub, .beClose]).map (·.rule)) = .ok [.beClose] := by cbv
  obtain ⟨t, hread, hrules⟩ := Tree.map_eq_ok_iff.mp hcheck
  have hset : ∀ rule, rule ∈ [Rule.beClose, .stub, .beClose] ↔ rule ∈ [Rule.stub, .beClose] := by
    intro rule
    cases rule <;> simp
  obtain ⟨hall, -, hconvert⟩ := enabled_as_set t .empty hset
  exact ⟨t, hread, hrules, hall, hconvert⟩

end Match
end SpecUpgrade
