import SpecUpgrade.Proofs.Probing

/-!
How the wrappers of probes stand in each other. Where the parts of the source that they reach over
are nested or apart, the halves of the wrappers pair up like brackets: between the two halves of a
wrapper stands what it reaches over, with the wrappers inside it and no half of any other.
-/

namespace SpecUpgrade.Probe

/-- The extents of any two nodes with requests are nested, equal or apart. -/
def Nested (t : Tree) (requests : Requests) : Prop :=
  ∀ a ∈ requests, ∀ b ∈ requests, (extent t a.1).contains (extent t b.1) = true ∨
    (extent t b.1).contains (extent t a.1) = true ∨ (extent t a.1).Beside (extent t b.1)

section Nesting
variable {t : Tree} {requests : Requests}

theorem pairwise_wrapper (hrequests : (requests.map (·.1)).Pairwise (· < ·)) :
    (requests.map (wrapper t)).Pairwise fun b c => b.span = c.span → b.rank < c.rank := by
  refine List.pairwise_map.mpr ((List.pairwise_map.mp hrequests).imp ?_)
  intro b c hlt _
  exact hlt

theorem laminar (ht : t.Built) (hrequests : (requests.map (·.1)).Pairwise (· < ·))
    (hnonempty : ∀ entry ∈ requests, (extent t entry.1).start < (extent t entry.1).stop)
    (hnested : Nested t requests) :
    Bracket.Laminar (requests.map (wrapper t)) (Text.byteLength t.source.toList) where
  bounds b hb := by
    obtain ⟨entry, hentry, rfl⟩ := List.mem_map.mp hb
    exact ⟨hnonempty entry hentry, (extent_fits ht entry.1).stop_le⟩
  distinct := (pairwise_wrapper hrequests).imp fun hrank heq => Nat.ne_of_lt (hrank heq)
  nested b hb c hc := by
    obtain ⟨x, hx, rfl⟩ := List.mem_map.mp hb
    obtain ⟨y, hy, rfl⟩ := List.mem_map.mp hc
    exact hnested x hx y hy

/-- All first halves are the same text, so only their number counts. -/
theorem map_openingAt {n : Nest} (hperm : n.brackets.Perm (requests.map (wrapper t)))
    (offset : Nat) :
    (Revision.openingAt (allEdits t requests) offset).map (fun e => (e.position, e.text)) =
      (n.brackets.filter (·.span.start == offset)).map fun b => (offset, b.opening) := by
  have hopens : ∀ b ∈ requests.map (wrapper t), b.opening = "respec_analyze((" ∧
      (anchor t b).start = b.span.start := by
    intro b hb
    obtain ⟨entry, -, rfl⟩ := List.mem_map.mp hb
    exact ⟨rfl, rfl⟩
  let starting := n.brackets.filter (·.span.start == offset)
  have hall : starting.map (fun b => (offset, b.opening)) =
      List.replicate starting.length (offset, "respec_analyze((") := by
    rw [← List.map_const']
    refine List.map_congr_left fun b hb => ?_
    rw [(hopens b (hperm.mem_iff.mp (List.mem_filter.mp hb).1)).1]
  refine Eq.trans (List.perm_replicate.mp ?_) hall.symm
  rw [← hall]
  refine ((List.mergeSort_perm _ _).map _).trans ?_
  rw [allEdits, Bracket.filter_opening, List.map_map,
    List.filter_congr fun b hb => by rw [(hopens b hb).2]]
  refine .trans (.of_eq (List.map_congr_left fun b hb => ?_)) ((hperm.filter _).map _).symm
  obtain ⟨hb, hstart⟩ := List.mem_filter.mp hb
  rw [beq_iff_eq, ← (hopens b hb).2] at hstart
  exact Prod.ext hstart rfl

/-- The text with probes is that of a nest of their wrappers. -/
theorem instrument_source_eq_text (ht : t.Built)
    (hrequests : (requests.map (·.1)).Pairwise (· < ·)) {n : Nest}
    (hperm : n.brackets.Perm (requests.map (wrapper t)))
    (hn : n.Proper 0 (Text.byteLength t.source.toList)) :
    (instrument t requests).source = n.text t.source 0 (Text.byteLength t.source.toList) := by
  rw [instrument_eq ht]
  refine Bracket.render_eq_text (fun b hb => ?_) (fun b _ => Tree.range_fits ht _) hperm hn
    (pairwise_wrapper hrequests) (map_openingAt hperm)
  obtain ⟨entry, -, rfl⟩ := List.mem_map.mp hb
  exact extent_fits ht entry.1

end Nesting

/-- Where the extents of the nodes with requests hold something and are nested, equal or apart, the
wrappers in the text with probes pair up like brackets. Between the two halves of the wrapper of a
node stands the text of its extent with the wrappers of exactly those nodes whose extents lie
within, or are the same and belong to a node with a smaller number. -/
theorem instrument_nests {t : Tree} (ht : t.Built) {requests : Requests}
    (hrequests : Registered t requests)
    (hnonempty : ∀ entry ∈ requests, (extent t entry.1).start < (extent t entry.1).stop)
    (hnested : Nested t requests) :
    ∃ n : Nest, n.brackets.Perm (requests.map (wrapper t)) ∧
      n.Proper 0 (Text.byteLength t.source.toList) ∧
      (instrument t requests).source = n.text t.source 0 (Text.byteLength t.source.toList) ∧
      ∀ entry ∈ requests, ∃ before inner behind,
        (instrument t requests).source = before ++ ("respec_analyze((" ++
          Nest.text t.source inner (extent t entry.1).start (extent t entry.1).stop ++
            closingText t entry) ++ behind ∧
        inner.Proper (extent t entry.1).start (extent t entry.1).stop ∧
        inner.brackets.Perm ((wrapper t entry).inside (requests.map (wrapper t))) := by
  have hlaminar := laminar ht hrequests.ascending hnonempty hnested
  let n := Nest.ofList (Bracket.arranged (requests.map (wrapper t)))
  have hn : n.Proper 0 (Text.byteLength t.source.toList) := hlaminar.proper
  have hperm : n.brackets.Perm (requests.map (wrapper t)) :=
    hlaminar.brackets_ofList ▸ Bracket.arranged_perm _
  have hsource := instrument_source_eq_text ht hrequests.ascending hperm hn
  refine ⟨n, hperm, hn, hsource, fun entry hentry => ?_⟩
  obtain ⟨before, inner, behind, htext, hinner, hinside⟩ :=
    Nest.exists_split t.source hn (hperm.mem_iff.mpr (List.mem_map_of_mem hentry))
  exact ⟨before, inner, behind, hsource.trans htext, hinner, hinside ▸ hperm.filter _⟩

set_option maxRecDepth 2048 in
/-- A call and its argument, closed behind the same heredoc. -/
theorem instrument_nests_heredoc :
    ∃ (t : Tree) (requests : Requests),
      Tree.ofDump "a.rb" "p <<A\nA\n" "(send @0..5 nil :p (str @2..5 ~6..7))" = .ok t ∧
      requests = [(0, [("k", ⟨.value, "c"⟩)]), (1, [("k", ⟨.value, "d"⟩)])] ∧
      Registered t requests ∧ Nested t requests ∧
      (extent t 0).stop = 7 ∧ (extent t 1).stop = 7 ∧
      (instrument t requests).source = "respec_analyze((p respec_analyze((<<A\nA" ++
        "\n), self, \x7b\"k\" => [\"self\", \"c\"]\x7d, \"a.rb\", 2, 5)" ++
        "\n), self, \x7b\"k\" => [\"self\", \"d\"]\x7d, \"a.rb\", 0, 5)\n" ∧
      ∃ n : Nest, n.brackets.Perm (requests.map (wrapper t)) ∧
        (instrument t requests).source = n.text t.source 0 (Text.byteLength t.source.toList) := by
  let requests : Requests := [(0, [("k", ⟨.value, "c"⟩)]), (1, [("k", ⟨.value, "d"⟩)])]
  have hcheck : (Tree.ofDump "a.rb" "p <<A\nA\n" "(send @0..5 nil :p (str @2..5 ~6..7))").map
      (fun t => (t.size, extent t 0, extent t 1, Revision.render ⟨t.source, allEdits t requests⟩)) =
        .ok (2, ⟨2, 7, by decide⟩, ⟨0, 7, by decide⟩, "respec_analyze((p respec_analyze((<<A\nA" ++
          "\n), self, \x7b\"k\" => [\"self\", \"c\"]\x7d, \"a.rb\", 2, 5)" ++
          "\n), self, \x7b\"k\" => [\"self\", \"d\"]\x7d, \"a.rb\", 0, 5)\n") := by cbv
  cases hread : Tree.ofDump "a.rb" "p <<A\nA\n" "(send @0..5 nil :p (str @2..5 ~6..7))" with
  | error e =>
    rw [hread] at hcheck
    cases hcheck
  | ok t =>
    rw [hread] at hcheck
    obtain ⟨hsize, hrest⟩ := Prod.mk.inj (Except.ok.inj hcheck)
    obtain ⟨hinner, hrest⟩ := Prod.mk.inj hrest
    obtain ⟨houter, hrendered⟩ := Prod.mk.inj hrest
    have ht := Tree.built_of_ofDump hread
    have hargument : 0 < t.size := by rw [hsize]; decide
    have hcall : 1 < t.size := by rw [hsize]; decide
    have hregistered : Registered t requests :=
      .register (.register .none hargument rfl) hcall rfl
    have hnonempty : ∀ entry ∈ requests, (extent t entry.1).start < (extent t entry.1).stop := by
      simp [requests, hinner, houter]
    have hnested : Nested t requests := by
      simp [requests, Nested, hinner, houter, Span.contains]
    obtain ⟨n, hperm, -, hsource, -⟩ := instrument_nests ht hregistered hnonempty hnested
    exact ⟨t, requests, rfl, rfl, hregistered, hnested, by rw [hinner], by rw [houter],
      by rw [instrument_eq ht, hrendered], n, hperm, hsource⟩

end SpecUpgrade.Probe
