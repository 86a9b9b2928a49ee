import Mathlib
import SpecUpgrade.Proofs.Arena

/-!
Blocks of examples, helpers and hooks are blocks like any other where it is decided whether code runs
as part of an example. So the scopes that tell them apart may be made plain, and a block may be given
the name of another method, as long as it is not made an example group.
-/

namespace SpecUpgrade

namespace Scope

/-- The scope, or a plain block for a block of any kind. -/
def plain (s : Scope) : Scope := if s.isBlockLike then plainBlock else s

theorem plain_eq_iff {s anchor : Scope} (h : anchor.isBlockLike = false) :
    s.plain = anchor ↔ s = anchor := by
  cases s <;> cases anchor <;> first | decide | cases h

@[simp] theorem isClassLike_plain (s : Scope) : s.plain.isClassLike = s.isClassLike := by
  cases s <;> rfl

@[simp] theorem isBlockLike_plain (s : Scope) : s.plain.isBlockLike = s.isBlockLike := by
  cases s <;> rfl

theorem sinceLast_map_plain {anchor : Scope} (h : anchor.isBlockLike = false)
    (scopes : List Scope) :
    sinceLast anchor (scopes.map plain) = (sinceLast anchor scopes).map (·.map plain) := by
  induction scopes with
  | nil => rfl
  | cons s rest ih =>
    rw [List.map_cons, sinceLast, sinceLast, ih]
    cases sinceLast anchor rest with
    | some found => rfl
    | none => by_cases hs : s = anchor <;> simp [plain_eq_iff h, hs]

@[simp] theorem plain_beq_method (s : Scope) : (s.plain == method) = (s == method) := by
  cases s <;> rfl

theorem any_isClassLike_map_plain (scopes : List Scope) :
    (scopes.map plain).any isClassLike = scopes.any isClassLike := by
  simp [List.any_map, Function.comp_def]

theorem runsInInstance_map_plain (rest : List Scope) :
    runsInInstance (rest.map plain) = runsInInstance rest := by
  rw [runsInInstance, runsInInstance, any_isClassLike_map_plain]
  simp [List.any_map, Function.comp_def]

/-- What is plain of the scopes decides alone. -/
theorem inExampleContext_map_plain (scopes : List Scope) :
    inExampleContext (scopes.map plain) = inExampleContext scopes := by
  have hplain : ∀ s : Scope, s.plain = method ↔ s = method := fun _ => plain_eq_iff rfl
  have hcontains : ∀ rest : List Scope,
      (rest.map plain).contains method = rest.contains method := by
    intro rest
    rw [Bool.eq_iff_iff, List.contains_iff_mem, List.contains_iff_mem, List.mem_map]
    simp [hplain]
  have hhead : (scopes.map plain).head? = some method ↔ scopes.head? = some method := by
    cases scopes with
    | nil => simp
    | cons s rest => simp [hplain]
  rw [inExampleContext, inExampleContext, sinceLast_map_plain rfl, sinceLast_map_plain rfl,
    sinceLast_map_plain rfl]
  cases sinceLast exampleGroup scopes with
  | some rest => exact runsInInstance_map_plain rest
  | none =>
    cases sinceLast configuration scopes with
    | some rest => exact runsInInstance_map_plain rest
    | none =>
      simp only [Option.map_none, hhead, ← List.map_tail, any_isClassLike_map_plain]
      cases sinceLast moduleBody scopes with
      | some rest => simp only [Option.map_some, any_isClassLike_map_plain, hcontains]
      | none => rfl

/-- The second is the first, or a plain block in the place of a block of an example, a helper or a
hook. -/
def MadePlain (s s' : Scope) : Prop :=
  s' = s ∨ (s = exampleBody ∨ s = helper ∨ s = hook) ∧ s' = plainBlock

theorem MadePlain.plain_eq {s s' : Scope} (h : MadePlain s s') : s'.plain = s.plain := by
  rcases h with rfl | ⟨rfl | rfl | rfl, rfl⟩ <;> rfl

theorem inExampleContext_of_madePlain {scopes scopes' : List Scope}
    (h : List.Forall₂ MadePlain scopes scopes') :
    inExampleContext scopes' = inExampleContext scopes := by
  have hplain : scopes'.map plain = scopes.map plain := by
    induction h with
    | nil => rfl
    | cons hs _ ih => rw [List.map_cons, List.map_cons, hs.plain_eq, ih]
  rw [← inExampleContext_map_plain, hplain, inExampleContext_map_plain]

def refinedMethods : List String := exampleMethods ++ helperMethods ++ hookMethods

theorem isBlockLike_ofMethod {method : String} (h : method ∉ exampleGroupMethods) :
    (ofMethod method).isBlockLike = true := by
  unfold ofMethod
  rw [if_neg h]
  split
  · rfl
  · split
    · rfl
    · split <;> rfl

theorem not_mem_exampleGroupMethods {method : String} (h : method ∈ refinedMethods) :
    method ∉ exampleGroupMethods := by
  have hapart : ∀ method ∈ refinedMethods, method ∉ exampleGroupMethods := by decide
  exact hapart method h

/-- Which of the names outside the list of groups a block has makes no difference. -/
theorem plain_ofMethod {method : String} (h : method ∉ exampleGroupMethods) :
    (ofMethod method).plain = plainBlock := by
  rw [plain, if_pos (isBlockLike_ofMethod h)]

end Scope

/-! ## Calls with another name -/

namespace Tree

/-- The second tree is the first with another name for one call, which has no receiver. Places and
text may differ. -/
structure Renamed (t t' : Tree) (call : Nat) (old name : String) : Prop where
  methodName?_call : t.methodName? call = some old
  receiver?_call : t.receiver? call = none
  kind : ∀ id, t'.kind id = t.kind id
  parent? : ∀ id, t'.parent? id = t.parent? id
  children : ∀ id, t'.children id =
    if id = call then (t.children id).set 1 (.literal (.sym name)) else t.children id

def rename (t : Tree) (call : Nat) (name : String) : Tree where
  path := t.path
  source := t.source
  nodes := t.nodes.modify call fun n => { n with children := n.children.set 1 (.literal (.sym name)) }
  root := t.root
  linked := by
    constructor
    · intro i n hn c hc
      rw [Array.getElem?_modify] at hn
      split at hn
      · obtain ⟨m, hm, rfl⟩ := Option.map_eq_some_iff.mp hn
        obtain ⟨child, hchild, hnode⟩ := List.mem_filterMap.mp hc
        rcases List.mem_or_eq_of_mem_set hchild with hchild | rfl
        · exact t.linked.child_lt hm c (List.mem_filterMap.mpr ⟨child, hchild, hnode⟩)
        · cases hnode
      · exact t.linked.child_lt hn c hc
    · intro i p n hn hp
      rw [Array.size_modify]
      rw [Array.getElem?_modify] at hn
      split at hn
      · obtain ⟨m, hm, rfl⟩ := Option.map_eq_some_iff.mp hn
        exact t.linked.lt_parent hm hp
      · exact t.linked.lt_parent hn hp

theorem renamed_rename {t : Tree} {call : Nat} {old : String}
    (hmethod : t.methodName? call = some old) (hreceiver : t.receiver? call = none) (name : String) :
    t.Renamed (t.rename call name) call old name where
  methodName?_call := hmethod
  receiver?_call := hreceiver
  kind id := by
    simp only [Tree.kind, node?, rename, Array.getElem?_modify]
    split <;> simp [Function.comp_def]
  parent? id := by
    simp only [Tree.parent?, node?, rename, Array.getElem?_modify]
    split <;> simp [Option.bind_map]
  children id := by
    simp only [Tree.children, node?, rename, Array.getElem?_modify]
    by_cases hid : call = id
    · rw [if_pos hid, if_pos hid.symm, Option.map_map]
      cases t.nodes[id]? <;> rfl
    · rw [if_neg hid, if_neg (Ne.symm hid)]

namespace Renamed

variable {t t' : Tree} {call : Nat} {old name : String}

theorem ancestors (h : t.Renamed t' call old name) (id : Nat) :
    t'.ancestors id = t.ancestors id := by
  fun_induction t.ancestors id with
  | case1 id hp => rw [ancestors_of_none (h.parent? id ▸ hp)]
  | case2 id p hp ih => rw [ancestors_of_some (h.parent? id ▸ hp), ih]

theorem childNode? (h : t.Renamed t' call old name) (id : Nat) :
    t'.childNode? id 0 = t.childNode? id 0 := by
  rw [Tree.childNode?, Tree.childNode?, h.children]
  split <;> simp

theorem isCall (h : t.Renamed t' call old name) (id : Nat) : t'.isCall id = t.isCall id := by
  rw [Tree.isCall, Tree.isCall, h.kind]

theorem receiver? (h : t.Renamed t' call old name) (id : Nat) :
    t'.receiver? id = t.receiver? id := by
  rw [Tree.receiver?, Tree.receiver?, h.isCall, h.childNode?]

theorem isCall_call (h : t.Renamed t' call old name) : t.isCall call = true := by
  have hname := h.methodName?_call
  unfold methodName? at hname
  split at hname
  · assumption
  · cases hname

theorem symbol?_of_ne (h : t.Renamed t' call old name) {id : Nat} (hid : id ≠ call) :
    t'.symbol? id 1 = t.symbol? id 1 := by
  rw [symbol?, symbol?, literal?, literal?, h.children, if_neg hid]

theorem methodName?_of_ne (h : t.Renamed t' call old name) {id : Nat} (hid : id ≠ call) :
    t'.methodName? id = t.methodName? id := by
  rw [methodName?, methodName?, h.isCall, h.symbol?_of_ne hid]

theorem methodName?_new (h : t.Renamed t' call old name) : t'.methodName? call = some name := by
  have hold := h.methodName?_call
  rw [methodName?, if_pos h.isCall_call] at hold
  have hslot : 1 < (t.children call).length := by
    by_contra hshort
    simp [symbol?, literal?, List.getElem?_eq_none (Nat.le_of_not_lt hshort)] at hold
  rw [methodName?, h.isCall, if_pos h.isCall_call, symbol?, literal?, h.children, if_pos rfl,
    List.getElem?_set_self hslot]
  rfl

/-- The constants of a tree are no calls and keep their names. -/
theorem isTopLevelConst (h : t.Renamed t' call old name) (id : Nat) (const : String) :
    t'.isTopLevelConst id const = t.isTopLevelConst id const := by
  have hname : t'.constName? id = t.constName? id := by
    rw [constName?, constName?, h.kind]
    by_cases hid : id = call
    · have hkind : t.kind id ≠ "const" := by
        intro hconst
        have hcall := hid ▸ h.isCall_call
        rw [Tree.isCall, hconst] at hcall
        cases hcall
      simp [hkind]
    · rw [h.symbol?_of_ne hid]
  rw [Tree.isTopLevelConst, Tree.isTopLevelConst, hname, h.childNode?]
  simp only [h.kind]

theorem plain_ofCall (h : t.Renamed t' call old name) (hold : old ∉ Scope.exampleGroupMethods)
    (hname : name ∉ Scope.exampleGroupMethods) (id : Nat) :
    (Scope.ofCall t' id).plain = (Scope.ofCall t id).plain := by
  unfold Scope.ofCall
  by_cases hid : id = call
  · subst hid
    simp only [h.receiver?, h.receiver?_call, h.methodName?_call, h.methodName?_new,
      Option.getD_some, Scope.plain_ofMethod hold, Scope.plain_ofMethod hname]
  · simp only [h.receiver?, h.methodName?_of_ne hid, h.isTopLevelConst]

theorem plain_ofNode? (h : t.Renamed t' call old name) (hold : old ∉ Scope.exampleGroupMethods)
    (hname : name ∉ Scope.exampleGroupMethods) (id : Nat) :
    (Scope.ofNode? t' id).map Scope.plain = (Scope.ofNode? t id).map Scope.plain := by
  have hblock : (Scope.ofBlock t' id).plain = (Scope.ofBlock t id).plain := by
    rw [Scope.ofBlock, Scope.ofBlock, h.childNode?]
    cases t.childNode? id 0 with
    | none => rfl
    | some c =>
      simp only [h.isCall]
      split
      · exact h.plain_ofCall hold hname c
      · rfl
  unfold Scope.ofNode?
  rw [h.kind]
  split <;> simp only [Option.map_some, Option.map_none, hblock]

theorem inExampleContext_eq (h : t.Renamed t' call old name)
    (hold : old ∉ Scope.exampleGroupMethods) (hname : name ∉ Scope.exampleGroupMethods) (id : Nat) :
    t'.inExampleContext id = t.inExampleContext id := by
  have hplain : (t'.scopesAt id).map Scope.plain = (t.scopesAt id).map Scope.plain := by
    rw [scopesAt, scopesAt, h.ancestors, List.map_reverse, List.map_reverse, List.map_filterMap,
      List.map_filterMap]
    simp only [h.plain_ofNode? hold hname]
  rw [inExampleContext, inExampleContext, ← Scope.inExampleContext_map_plain, hplain,
    Scope.inExampleContext_map_plain]

end Renamed

/-- Blocks of examples, helpers and hooks may take the place of plain blocks. Any of their scopes may
be made plain; and a call of such a block, without a receiver, may be given any other name that is not
that of an example group. It stays the same at every node whether code there runs as part of an
example. -/
theorem blocks_interchangeable :
    (∀ scopes scopes' : List Scope, List.Forall₂ Scope.MadePlain scopes scopes' →
      Scope.inExampleContext scopes' = Scope.inExampleContext scopes) ∧
    ∀ (t t' : Tree) (call : Nat) (old name : String), t.Renamed t' call old name →
      old ∈ Scope.refinedMethods → name ∉ Scope.exampleGroupMethods →
        ∀ id, t'.inExampleContext id = t.inExampleContext id := by
  refine ⟨fun scopes scopes' h => Scope.inExampleContext_of_madePlain h, ?_⟩
  intro t t' call old name h hold hname id
  exact h.inExampleContext_eq (Scope.not_mem_exampleGroupMethods hold) hname id

/-- An example in a group gets a block of another method, in which there still is an example. -/
theorem blocks_interchangeable_example :
    ∃ t, ofDump "a.rb" "" "(block (send nil :describe) (a) (block (send nil :it) (a) (x)))" = .ok t ∧
      t.Renamed (t.rename 2 "measure") 2 "it" "measure" ∧
      Scope.ofNode? t 5 = some .exampleBody ∧
      Scope.ofNode? (t.rename 2 "measure") 5 = some .plainBlock ∧
      t.inExampleContext 4 = true ∧ (t.rename 2 "measure").inExampleContext 4 = true := by
  have hcheck : (ofDump "a.rb" ""
      "(block (send nil :describe) (a) (block (send nil :it) (a) (x)))").map (fun t =>
        (t.methodName? 2, t.receiver? 2, Scope.ofNode? t 5,
          Scope.ofNode? (t.rename 2 "measure") 5, t.inExampleContext 4)) =
      .ok (some "it", none, some .exampleBody, some .plainBlock, true) := by cbv
  obtain ⟨t, hread, hcheck⟩ := map_eq_ok_iff.mp hcheck
  simp only [Prod.mk.injEq] at hcheck
  obtain ⟨hmethod, hreceiver, hexample, hplain, hcontext⟩ := hcheck
  have hrenamed := renamed_rename hmethod hreceiver "measure"
  have hsame := blocks_interchangeable.2 t _ 2 "it" "measure" hrenamed (by decide) (by decide) 4
  exact ⟨t, hread, hrenamed, hexample, hplain, hcontext, hsame.trans hcontext⟩

end Tree

end SpecUpgrade
