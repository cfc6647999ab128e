import Mathlib.Data.List.Nodup
import PipelineDoc.Proofs.Rank.Layering

/-!
# One sweep along a topological order

A second way to the depths of the nodes: sort the nodes so that every edge leads forward, then go
along this order once and lift the targets of the edges of each node above it. The sort itself is
left open; `IsSorter` says what is asked of it. Whatever sorter is taken, the sweep gives the layers
(`longestPath?_eq_sweep`). Listing the layers one after the other is such a sorter
(`isSorter_layerSort`).
-/

namespace PipelineDoc.Rank

variable {edges : List (Nat × Nat)}

/-- An order of the nodes below `n` in which every edge leads forward. -/
structure IsTopologicalOrder (n : Nat) (edges : List (Nat × Nat)) (order : List Nat) : Prop where
  perm : order.Perm (List.range n)
  forward : ∀ e ∈ edges, order.idxOf e.1 < order.idxOf e.2

/-- A topological sort of the graphs with edges between nodes below `n`: it gives an order of all
nodes when there is no cycle and fails when there is one. -/
structure IsSorter (sort : Nat → List (Nat × Nat) → Option (List Nat)) : Prop where
  sorts : ∀ n edges, (∀ e ∈ edges, e.1 < n ∧ e.2 < n) → Acyclic edges →
    ∃ order, sort n edges = some order ∧ IsTopologicalOrder n edges order
  fails : ∀ n edges, (∀ e ∈ edges, e.1 < n ∧ e.2 < n) → ¬ Acyclic edges → sort n edges = none

/-- Lifts a node to a rank, unless it is there already. -/
def raise (rank : Nat) (ranks : Array Nat) (v : Nat) : Array Nat :=
  ranks.setIfInBounds v (max (ranks.getD v 0) rank)

/-- The targets of the edges of a node, the latest edge first. -/
def successors (edges : List (Nat × Nat)) (u : Nat) : List Nat :=
  ((edges.filter fun e => e.1 == u).map fun e => e.2).reverse

/-- Lifts the targets of the edges of a node above it. -/
def visit (edges : List (Nat × Nat)) (ranks : Array Nat) (u : Nat) : Array Nat :=
  (successors edges u).foldl (raise (ranks.getD u 0 + 1)) ranks

/-- The ranks by one sweep along an order. -/
def sweep (n : Nat) (edges : List (Nat × Nat)) (order : List Nat) : List Nat :=
  (order.foldl (visit edges) (Array.replicate n 0)).toList

/-! ### One visit -/

theorem mem_successors {u v : Nat} : v ∈ successors edges u ↔ (u, v) ∈ edges := by
  simp only [successors, List.mem_reverse, List.mem_map, List.mem_filter, beq_iff_eq, Prod.exists]
  constructor
  · rintro ⟨a, b, ⟨he, rfl⟩, rfl⟩
    exact he
  · exact fun he => ⟨u, v, ⟨he, rfl⟩, rfl⟩

theorem getD_raise (rank : Nat) (ranks : Array Nat) (u v : Nat) :
    (raise rank ranks u).getD v 0 =
      if u = v ∧ v < ranks.size then max (ranks.getD v 0) rank else ranks.getD v 0 := by
  unfold raise
  by_cases hv : v < ranks.size
  · by_cases hu : u = v
    · subst hu
      simp [Array.getD, hv]
    · simp [Array.getD, hv, hu]
  · simp [Array.getD, hv]

theorem foldl_raise (rank : Nat) (us : List Nat) (ranks : Array Nat) :
    (us.foldl (raise rank) ranks).size = ranks.size ∧
      ∀ v, (us.foldl (raise rank) ranks).getD v 0 =
        if v ∈ us ∧ v < ranks.size then max (ranks.getD v 0) rank else ranks.getD v 0 := by
  induction us generalizing ranks with
  | nil => simp
  | cons u us ih =>
    have hsize : (raise rank ranks u).size = ranks.size := by simp [raise]
    obtain ⟨h1, h2⟩ := ih (raise rank ranks u)
    rw [hsize] at h1
    refine ⟨h1, fun v => ?_⟩
    rw [List.foldl_cons, h2, getD_raise, hsize]
    by_cases hv : v < ranks.size
    · by_cases hu : u = v
      · subst hu
        by_cases hm : u ∈ us <;> simp [hv, hm]
      · simp [hv, hu, Ne.symm hu]
    · simp [hv]

theorem size_visit (edges : List (Nat × Nat)) (ranks : Array Nat) (u : Nat) :
    (visit edges ranks u).size = ranks.size := (foldl_raise _ _ _).1

theorem getD_visit (edges : List (Nat × Nat)) (ranks : Array Nat) (u v : Nat) :
    (visit edges ranks u).getD v 0 =
      if (u, v) ∈ edges ∧ v < ranks.size then max (ranks.getD v 0) (ranks.getD u 0 + 1)
      else ranks.getD v 0 := by
  rw [visit, (foldl_raise _ _ _).2]
  simp only [mem_successors]

/-! ### The sweep -/

/-- In a topological order no edge leads from a node back to itself or to an earlier one. -/
theorem IsTopologicalOrder.not_mem {n : Nat} {order : List Nat}
    (h : IsTopologicalOrder n edges order) {done todo : List Nat} {u v : Nat}
    (ho : order = done ++ u :: todo) (he : (u, v) ∈ edges) : v ∉ done ∧ v ≠ u := by
  have hnd : (done ++ u :: todo).Nodup := by
    rw [← ho, h.perm.nodup_iff]
    exact List.nodup_range
  have hu : u ∉ done := fun hu => (List.disjoint_of_nodup_append hnd) hu List.mem_cons_self
  have hlt := h.forward _ he
  rw [ho, List.idxOf_append_of_notMem hu, List.idxOf_cons_self] at hlt
  constructor
  · intro hv
    rw [List.idxOf_append_of_mem hv] at hlt
    have := List.idxOf_lt_length_of_mem hv
    omega
  · rintro rfl
    rw [List.idxOf_append_of_notMem hu, List.idxOf_cons_self] at hlt
    exact Nat.lt_irrefl _ hlt

/-- What holds in the middle of a sweep: the ranks are attained, and the edges of the nodes that
have been visited lead to higher ranks. -/
structure Swept (n : Nat) (edges : List (Nat × Nat)) (done : List Nat) (ranks : Array Nat) : Prop where
  size : ranks.size = n
  attained : Attained edges ranks
  closed : ∀ e ∈ edges, e.1 ∈ done → ranks.getD e.1 0 + 1 ≤ ranks.getD e.2 0

theorem Swept.visit {n : Nat} (hn : ∀ e ∈ edges, e.1 < n ∧ e.2 < n) {done : List Nat} {u : Nat}
    (hu : ∀ v, (u, v) ∈ edges → v ∉ done ∧ v ≠ u) {ranks : Array Nat}
    (h : Swept n edges done ranks) : Swept n edges (done ++ [u]) (visit edges ranks u) := by
  have keep : ∀ v, (u, v) ∉ edges → (Rank.visit edges ranks u).getD v 0 = ranks.getD v 0 := by
    intro v hv
    rw [getD_visit, if_neg fun hc => hv hc.1]
  refine ⟨by rw [size_visit, h.size], fun v => ?_, fun e he hd => ?_⟩
  · rw [getD_visit]
    split_ifs with hv
    · rcases Nat.le_total (ranks.getD v 0) (ranks.getD u 0 + 1) with hle | hle
      · rw [Nat.max_eq_right hle]
        exact .snoc (h.attained u) hv.1
      · rw [Nat.max_eq_left hle]
        exact h.attained v
    · exact h.attained v
  · -- the source of the edge has been visited, so its rank is kept from now on
    have hsrc : (u, e.1) ∉ edges := by
      intro hc
      obtain ⟨h1, h2⟩ := hu _ hc
      rcases List.mem_append.mp hd with hd | hd
      · exact h1 hd
      · exact h2 (by simpa using hd)
    rw [keep _ hsrc]
    rcases List.mem_append.mp hd with hd | hd
    · have := h.closed e he hd
      rw [getD_visit]
      split_ifs <;> omega
    · obtain rfl : e.1 = u := by simpa using hd
      rw [getD_visit, if_pos ⟨he, by rw [h.size]; exact (hn e he).2⟩]
      omega

theorem swept_foldl {n : Nat} (hn : ∀ e ∈ edges, e.1 < n ∧ e.2 < n) {order : List Nat}
    (ho : IsTopologicalOrder n edges order) {todo done : List Nat} {ranks : Array Nat}
    (hs : order = done ++ todo) (h : Swept n edges done ranks) :
    Swept n edges order (todo.foldl (visit edges) ranks) := by
  induction todo generalizing done ranks with
  | nil =>
    obtain rfl : order = done := by simpa using hs
    exact h
  | cons u todo ih =>
    rw [List.foldl_cons]
    exact ih (by simpa using hs) (h.visit hn fun v he => ho.not_mem hs he)

theorem isDepth_sweep {n : Nat} (hn : ∀ e ∈ edges, e.1 < n ∧ e.2 < n) {order : List Nat}
    (ho : IsTopologicalOrder n edges order) : ∃ ranks : Array Nat,
      sweep n edges order = ranks.toList ∧ ranks.size = n ∧
        ∀ v, IsDepth edges v (ranks.getD v 0) := by
  have h := swept_foldl hn ho (List.nil_append order).symm
    ⟨Array.size_replicate, attained_replicate edges n, by simp⟩
  have hcl : Closed edges fun v =>
      (order.foldl (Rank.visit edges) (Array.replicate n 0)).getD v 0 :=
    fun e he => h.closed e he (by rw [ho.perm.mem_iff]; simpa using (hn e he).1)
  exact ⟨_, rfl, h.size, fun v => .of_closed hcl (h.attained v)⟩

/-- **The sweep along any sorter's order gives the layers.** -/
theorem longestPath?_eq_sweep {sort : Nat → List (Nat × Nat) → Option (List Nat)}
    (hsort : IsSorter sort) {n : Nat} (hn : ∀ e ∈ edges, e.1 < n ∧ e.2 < n) :
    longestPath? n edges = (sort n edges).map (sweep n edges) := by
  by_cases hac : Acyclic edges
  · obtain ⟨order, hs, ho⟩ := hsort.sorts n edges hn hac
    obtain ⟨ranks, hsw, hsize, hd⟩ := isDepth_sweep hn ho
    obtain ⟨rs, hrs⟩ := Option.isSome_iff_exists.mp ((longestPath?_isSome_iff hn).mpr hac)
    obtain ⟨hlen, rank, rfl, -, hr⟩ := isDepth_longestPath? hn hrs
    rw [hrs, hs, Option.map_some, hsw, Option.some.injEq]
    refine List.ext_getElem (by simp [hsize]) fun v h1 h2 => ?_
    have hv : v < n := by simpa using h1
    have heq := (hr v hv).1.unique (hd v)
    simp only [List.getElem_map, List.getElem_range, Array.getElem_toList]
    rw [heq]
    simp [Array.getD, hsize, hv]
  · rw [hsort.fails n edges hn hac, Option.map_none]
    rw [← Option.not_isSome_iff_eq_none, longestPath?_isSome_iff hn]
    exact hac

/-! ### Sorting by layers -/

/-- The nodes below `n`, layer by layer. -/
def layerSort (n : Nat) (edges : List (Nat × Nat)) : Option (List Nat) :=
  (layers? edges n (List.range n)).map List.flatten

/-- The layers hold the nodes that are left, each once, and edges between these lead forward. -/
theorem flatten_of_layers? {rounds : Nat} {left : List Nat} {layers : List (List Nat)}
    (h : layers? edges rounds left = some layers) :
    layers.flatten.Perm left ∧ ∀ e ∈ edges, e.1 ∈ left → e.2 ∈ left →
      layers.flatten.idxOf e.1 < layers.flatten.idxOf e.2 := by
  induction rounds generalizing left layers with
  | zero =>
    cases left with
    | nil =>
      simp only [layers?, Option.some.injEq] at h
      subst h
      simp
    | cons v left => simp [layers?] at h
  | succ rounds ih =>
    by_cases hl : left = []
    · subst hl
      simp only [layers?, Option.some.injEq] at h
      subst h
      simp
    rw [layers?_succ edges rounds hl] at h
    split_ifs at h
    obtain ⟨layers, hs, rfl⟩ := Option.map_eq_some_iff.mp h
    obtain ⟨hp, hf⟩ := ih hs
    refine ⟨?_, fun e he h1 h2 => ?_⟩
    · rw [List.flatten_cons]
      refine (List.perm_append_comm.trans (hp.append_right _)).trans ?_
      exact List.filter_append_perm (blocked edges left) left
    · have hb2 : blocked edges left e.2 = true := blocked_iff.mpr ⟨e.1, h1, he⟩
      rw [List.flatten_cons, List.idxOf_append_of_notMem (a := e.2) (by simp [hb2])]
      cases hb1 : blocked edges left e.1 with
      | false =>
        have hm : e.1 ∈ left.filter fun v => !blocked edges left v := by simp [h1, hb1]
        rw [List.idxOf_append_of_mem hm]
        have := List.idxOf_lt_length_of_mem hm
        omega
      | true =>
        have := hf e he (List.mem_filter.mpr ⟨h1, hb1⟩) (List.mem_filter.mpr ⟨h2, hb2⟩)
        rw [List.idxOf_append_of_notMem (by simp [hb1])]
        omega

/-- **Listing the layers is a topological sort.** -/
theorem isSorter_layerSort : IsSorter layerSort := by
  refine ⟨fun n edges hn hac => ?_, fun n edges hn hcy => ?_⟩
  · obtain ⟨layers, hl⟩ := Option.isSome_iff_exists.mp (hac.layers?_isSome n (List.range n) (by simp))
    obtain ⟨hp, hf⟩ := flatten_of_layers? hl
    refine ⟨layers.flatten, by rw [layerSort, hl, Option.map_some], hp, fun e he => ?_⟩
    exact hf e he (by simpa using (hn e he).1) (by simpa using (hn e he).2)
  · have h : longestPath? n edges = none := by
      rw [← Option.not_isSome_iff_eq_none, longestPath?_isSome_iff hn]
      exact hcy
    rw [longestPath?, Option.map_eq_none_iff] at h
    rw [layerSort, h, Option.map_none]

end PipelineDoc.Rank
