import PipelineDoc.Graph.Layout
import PipelineDoc.Proofs.Rank.Sweep

/-!
# The two engines

With as many passes as there are nodes relaxation finds all depths of a graph without cycles, and on
a graph with a cycle the other engine relaxes as well. So both engines lay out every graph alike
(`engines_place_alike`), and so does a sweep along a topological order, whatever sorter gives it.
-/

namespace PipelineDoc

theorem Graph.lt_of_mem_edgeIndices {g : Graph} {e : Nat × Nat} (h : e ∈ g.edgeIndices) :
    e.1 < g.nodes.length ∧ e.2 < g.nodes.length := by
  obtain ⟨edge, -, he⟩ := List.mem_filterMap.mp h
  split at he
  · next s t hs ht =>
    obtain rfl : (s, t) = e := by simpa using he
    exact ⟨(List.findIdx?_eq_some_iff_findIdx_eq.mp hs).1, (List.findIdx?_eq_some_iff_findIdx_eq.mp ht).1⟩
  · simp at he

/-- The order of a node is the number of nodes before it with the same rank. -/
theorem getElem?_withOrders (seen ranks : List Nat) (i : Nat) :
    (withOrders seen ranks)[i]? =
      ranks[i]?.map fun rank => (rank, seen.count rank + (ranks.take i).count rank) := by
  induction ranks generalizing seen i with
  | nil => simp [withOrders]
  | cons r ranks ih =>
    cases i with
    | zero => simp [withOrders]
    | succ i =>
      rw [withOrders, List.getElem?_cons_succ, ih, List.getElem?_cons_succ]
      congr 1
      funext rank
      rw [List.take_succ_cons, List.count_cons, List.count_cons]
      congr 1
      omega

theorem map_fst_withOrders (ranks : List Nat) : (withOrders [] ranks).map (·.1) = ranks := by
  refine List.ext_getElem? fun i => ?_
  rw [List.getElem?_map, getElem?_withOrders, Option.map_map]
  cases ranks[i]? <;> rfl

namespace Layout

/-- The layout with another engine. -/
def withEngine (layout : Layout) (engine : Engine) : Layout := { layout with engine }

/-- Places the nodes of a graph by given ranks. -/
def applyRanks (layout : Layout) (g : Graph) (ranks : List Nat) : Graph :=
  { g with
    nodes := g.nodes.zipWith
      (fun n (rank, order) => { n with rank, position := layout.position rank order })
      (withOrders [] ranks) }

/-- The ranks by a sweep along the order that `sort` gives; by relaxation where it gives none. -/
def sweptRanks (sort : Nat → List (Nat × Nat) → Option (List Nat)) (layout : Layout) (g : Graph) :
    List Nat :=
  let n := g.nodes.length
  ((sort n g.edgeIndices).map (Rank.sweep n g.edgeIndices)).getD
    (Rank.relaxation n g.edgeIndices (layout.passes.getD n))

theorem apply_eq_applyRanks (layout : Layout) (g : Graph) :
    layout.apply g = layout.applyRanks g (layout.ranks g) := rfl

/-! ### Nothing is lost -/

theorem length_withOrders (seen ranks : List Nat) :
    (withOrders seen ranks).length = ranks.length := by
  induction ranks generalizing seen with
  | nil => rfl
  | cons r ranks ih => simp [withOrders, ih]

theorem length_ranks (layout : Layout) (g : Graph) : (layout.ranks g).length = g.nodes.length := by
  unfold ranks
  split
  · exact Rank.length_relaxation ..
  · cases h : Rank.longestPath? g.nodes.length g.edgeIndices with
    | none =>
      show ((Rank.longestPath? g.nodes.length g.edgeIndices).getD _).length = _
      rw [h]
      exact Rank.length_relaxation ..
    | some ranks =>
      show ((Rank.longestPath? g.nodes.length g.edgeIndices).getD _).length = _
      rw [h]
      exact (Rank.isDepth_longestPath? (fun _ => Graph.lt_of_mem_edgeIndices) h).1

theorem map_id_applyRanks (layout : Layout) (g : Graph) {ranks : List Nat}
    (h : ranks.length = g.nodes.length) :
    (layout.applyRanks g ranks).nodes.map (·.id) = g.nodes.map (·.id) := by
  unfold applyRanks
  refine List.ext_getElem (by simp [length_withOrders, h]) fun i h1 h2 => ?_
  simp

/-! ### Equal ranks -/

/-- **Relaxation gives the layers**, with no fewer passes than there are nodes. -/
theorem relaxation_eq_longestPath? {n p : Nat} {edges : List (Nat × Nat)}
    (hn : ∀ e ∈ edges, e.1 < n ∧ e.2 < n) (hp : n ≤ p) {ranks : List Nat}
    (h : Rank.longestPath? n edges = some ranks) : Rank.relaxation n edges p = ranks := by
  obtain ⟨hlen, rank, rfl, -, hd⟩ := Rank.isDepth_longestPath? hn h
  refine List.ext_getElem (by simp) fun v h1 h2 => ?_
  have hv : v < n := by simpa using h1
  obtain ⟨hdepth, hlt⟩ := hd v hv
  rw [Rank.getElem_relaxation,
    Rank.isDepth_iterate_pass (fun e he => (hn e he).2) hdepth (by omega)]
  simp

theorem ranks_longestPath (layout : Layout) (g : Graph)
    (hp : ∀ p, layout.passes = some p → g.nodes.length ≤ p) :
    (layout.withEngine .longestPath).ranks g = (layout.withEngine .relaxation).ranks g := by
  have hle : g.nodes.length ≤ layout.passes.getD g.nodes.length := by
    cases h : layout.passes with
    | none => exact Nat.le_refl _
    | some p => exact hp p h
  simp only [ranks, withEngine]
  cases h : Rank.longestPath? g.nodes.length g.edgeIndices with
  | none => rfl
  | some ranks =>
    exact (relaxation_eq_longestPath? (fun _ => Graph.lt_of_mem_edgeIndices) hle h).symm

theorem sweptRanks_eq_ranks {sort : Nat → List (Nat × Nat) → Option (List Nat)}
    (hsort : Rank.IsSorter sort) (layout : Layout) (g : Graph) :
    layout.sweptRanks sort g = (layout.withEngine .longestPath).ranks g := by
  simp only [sweptRanks, ranks, withEngine]
  rw [Rank.longestPath?_eq_sweep hsort fun _ => Graph.lt_of_mem_edgeIndices]

/-- **Both engines place every node alike**: with no bound on the passes, or with one that is no
lower than the number of nodes, layering, relaxation and a sweep along any sorter's order give the
same graph, in which every node is still there. -/
theorem engines_place_alike {sort : Nat → List (Nat × Nat) → Option (List Nat)}
    (hsort : Rank.IsSorter sort) (layout : Layout) (g : Graph)
    (hp : ∀ p, layout.passes = some p → g.nodes.length ≤ p) :
    (layout.withEngine .longestPath).apply g = (layout.withEngine .relaxation).apply g ∧
      layout.applyRanks g (layout.sweptRanks sort g) = (layout.withEngine .relaxation).apply g ∧
      ((layout.withEngine .relaxation).apply g).nodes.map (·.id) = g.nodes.map (·.id) := by
  have heq := ranks_longestPath layout g hp
  refine ⟨?_, ?_, map_id_applyRanks _ _ (length_ranks _ g)⟩
  · rw [apply_eq_applyRanks, heq]
    rfl
  · rw [sweptRanks_eq_ranks hsort, heq]
    rfl

/-- A chain of three nodes whose last edge comes first, and the chain closed to a cycle, with a
bound of three passes. -/
theorem engines_place_alike_chain :
    let chain := ((((Graph.empty.addNode .module ['a'] ['a']).addNode .module ['b'] ['b']).addNode
      .module ['c'] ['c']).addEdge .dataFlow ['b'] ['c']).addEdge .dataFlow ['a'] ['b']
    let cycle := chain.addEdge .dataFlow ['c'] ['a']
    let layout : Layout := { passes := some 3 }
    chain.edgeIndices = [(1, 2), (0, 1)] ∧
      Rank.longestPath? 3 chain.edgeIndices = some [0, 1, 2] ∧
      Rank.longestPath? 3 cycle.edgeIndices = none ∧
      ∀ g ∈ [chain, cycle],
        (layout.withEngine .longestPath).apply g = (layout.withEngine .relaxation).apply g ∧
          layout.applyRanks g (layout.sweptRanks Rank.layerSort g) =
            (layout.withEngine .relaxation).apply g ∧
          ((layout.withEngine .relaxation).apply g).nodes.map (·.id) = g.nodes.map (·.id) := by
  intro chain cycle layout
  refine ⟨by decide, by decide, by decide, fun g hg => ?_⟩
  have hpasses : ∀ p, layout.passes = some p → g.nodes.length ≤ p := by
    intro p hp
    obtain rfl : 3 = p := Option.some.inj hp
    rcases List.mem_pair.mp hg with rfl | rfl <;> decide
  exact engines_place_alike Rank.isSorter_layerSort layout g hpasses

end Layout

end PipelineDoc
