import Mathlib.Data.List.Induction
import PipelineDoc.Proofs.Cursor.Access
import PipelineDoc.Proofs.Layout.Engines

/-!
# Layout by indices

Ranks are kept in a list that is read and written by the index of a node. Relaxation stops after the
first pass that changes nothing; the other engine goes along the order that a topological sort
gives. To place the nodes their indices are collected rank by rank, and then each node is written
its place. The indices of a graph are below the number of its nodes, so no access fails.
-/

namespace PipelineDoc.Cursor

/-! ### Relaxation -/

/-- Lifts the target of an edge above its source, and notes whether that was a change. -/
def liftEdge (state : List Nat × Bool) (e : Nat × Nat) : Read (List Nat × Bool) := do
  let source ← fetch state.1 e.1
  let target ← fetch state.1 e.2
  if source + 1 > target then return (← store state.1 e.2 (source + 1), true) else return state

/-- At most the given number of passes; the first that changes nothing is the last. -/
def relax (edges : List (Nat × Nat)) : (passes : Nat) → List Nat → Read (List Nat)
  | 0, ranks => return ranks
  | passes + 1, ranks => do
    let (ranks, changed) ← edges.foldlM liftEdge (ranks, false)
    if changed then relax edges passes ranks else return ranks

/-- The ranks by relaxation. -/
def relaxation (n : Nat) (edges : List (Nat × Nat)) (passes : Nat) : Read (List Nat) :=
  relax edges passes (List.replicate n 0)

theorem fetch_toList {ranks : Array Nat} {v : Nat} (h : v < ranks.size) :
    fetch ranks.toList v = .ok (ranks.getD v 0) :=
  fetch_eq (by simp [Array.getD, h])

theorem store_toList {ranks : Array Nat} {v : Nat} (h : v < ranks.size) (rank : Nat) :
    store ranks.toList v rank = .ok (ranks.setIfInBounds v rank).toList := by
  rw [store_eq (by simpa using h), Array.toList_setIfInBounds]

theorem eq_of_getD_eq {a b : Array Nat} (hsize : a.size = b.size)
    (h : ∀ v, a.getD v 0 = b.getD v 0) : a = b := by
  refine Array.ext hsize fun v ha hb => ?_
  have := h v
  simpa [Array.getD, ha, hb] using this

theorem liftEdge_eq {ranks : Array Nat} {e : Nat × Nat} (h1 : e.1 < ranks.size)
    (h2 : e.2 < ranks.size) (changed : Bool) :
    liftEdge (ranks.toList, changed) e =
      .ok ((Rank.lift ranks e).toList, changed || decide (Rank.lift ranks e ≠ ranks)) := by
  rw [liftEdge, fetch_toList h1, ok_bind, fetch_toList h2, ok_bind]
  by_cases hlt : ranks.getD e.1 0 + 1 > ranks.getD e.2 0
  · have hlift : Rank.lift ranks e = ranks.setIfInBounds e.2 (ranks.getD e.1 0 + 1) := by
      rw [Rank.lift, Nat.max_eq_right (by omega)]
    have hne : Rank.lift ranks e ≠ ranks := by
      intro heq
      have hget := Rank.getD_lift ranks e e.2
      rw [heq, if_pos ⟨rfl, h2⟩] at hget
      omega
    rw [if_pos hlt, store_toList h2, ← hlift, decide_eq_true hne, Bool.or_true]
    rfl
  · have hlift : Rank.lift ranks e = ranks := by
      refine eq_of_getD_eq (Rank.size_lift ranks e) fun v => ?_
      rw [Rank.getD_lift]
      by_cases hv : e.2 = v ∧ v < ranks.size
      · rw [if_pos hv, ← hv.1, Nat.max_eq_left (by omega)]
      · rw [if_neg hv]
    rw [if_neg hlt, hlift, decide_eq_false (fun h => h rfl), Bool.or_false]
    rfl

/-- Ranks only rise, so a pass that changes one ends with other ranks than it began with. -/
theorem foldlM_liftEdge {edges : List (Nat × Nat)} {n : Nat}
    (hn : ∀ e ∈ edges, e.1 < n ∧ e.2 < n) {ranks : Array Nat} (hsize : ranks.size = n)
    (changed : Bool) :
    edges.foldlM liftEdge (ranks.toList, changed) =
      .ok ((Rank.pass edges ranks).toList, changed || decide (Rank.pass edges ranks ≠ ranks)) := by
  induction edges generalizing ranks changed with
  | nil => simp [Rank.pass, pure_eq]
  | cons e edges ih =>
    obtain ⟨h1, h2⟩ := hn e List.mem_cons_self
    rw [List.foldlM_cons, liftEdge_eq (hsize ▸ h1) (hsize ▸ h2), ok_bind,
      ih (fun e' he' => hn e' (List.mem_cons_of_mem _ he')) (by rw [Rank.size_lift, hsize])]
    have hpass : Rank.pass (e :: edges) ranks = Rank.pass edges (Rank.lift ranks e) := rfl
    rw [hpass, Bool.or_assoc]
    congr 3
    by_cases hlift : Rank.lift ranks e = ranks
    · simp [hlift]
    · have hne : Rank.pass edges (Rank.lift ranks e) ≠ ranks := by
        intro heq
        refine hlift (eq_of_getD_eq (Rank.size_lift ranks e) fun v => ?_)
        have hle := Rank.le_getD_lift ranks e v
        have hge := Rank.le_getD_pass edges (Rank.lift ranks e) v
        rw [heq] at hge
        omega
      rw [decide_eq_true hlift, decide_eq_true hne, Bool.true_or]

theorem relax_eq {edges : List (Nat × Nat)} {n : Nat} (hn : ∀ e ∈ edges, e.1 < n ∧ e.2 < n)
    (passes : Nat) (ranks : Array Nat) (hsize : ranks.size = n) :
    relax edges passes ranks.toList = .ok (Rank.relax edges passes ranks).toList := by
  induction passes generalizing ranks with
  | zero => rfl
  | succ passes ih =>
    rw [relax, foldlM_liftEdge hn hsize, ok_bind, Rank.relax]
    by_cases h : Rank.pass edges ranks = ranks
    · simp only [h, ne_eq, not_true_eq_false, decide_false, Bool.or_false, Bool.false_eq_true,
        if_false, if_true]
      rfl
    · simp only [h, ne_eq, not_false_eq_true, decide_true, Bool.or_true, if_true, if_false]
      exact ih _ (by rw [Rank.pass, (Rank.foldl_lift edges ranks).1, hsize])

theorem relaxation_eq {edges : List (Nat × Nat)} {n : Nat} (hn : ∀ e ∈ edges, e.1 < n ∧ e.2 < n)
    (passes : Nat) : relaxation n edges passes = .ok (Rank.relaxation n edges passes) := by
  have h := relax_eq hn passes (Array.replicate n 0) (by simp)
  rwa [Array.toList_replicate] at h

/-! ### The sweep -/

/-- Lifts a node to a rank, unless it is there already. -/
def raise (rank : Nat) (ranks : List Nat) (v : Nat) : Read (List Nat) := do
  store ranks v (max (← fetch ranks v) rank)

/-- Lifts the targets of the edges of a node above it. -/
def visit (edges : List (Nat × Nat)) (ranks : List Nat) (u : Nat) : Read (List Nat) := do
  let rank ← fetch ranks u
  (Rank.successors edges u).foldlM (raise (rank + 1)) ranks

/-- The ranks by one sweep along the order that `sort` gives; none when it gives none. The ends of
the edges are looked up in the list of the nodes. -/
def longestPath? (sort : Nat → List (Nat × Nat) → Option (List Nat)) (n : Nat)
    (edges : List (Nat × Nat)) : Read (Option (List Nat)) := do
  let edges ← edges.mapM fun e => do
    return (← fetch (List.range n) e.1, ← fetch (List.range n) e.2)
  match sort n edges with
  | none => return none
  | some order => return some (← order.foldlM (visit edges) (List.replicate n 0))

theorem foldlM_toList {α : Type} {f : List Nat → α → Read (List Nat)} {g : Array Nat → α → Array Nat}
    {n : Nat} {xs : List α}
    (h : ∀ a ∈ xs, ∀ ranks : Array Nat, ranks.size = n →
      f ranks.toList a = .ok (g ranks a).toList ∧ (g ranks a).size = n)
    (ranks : Array Nat) (hsize : ranks.size = n) :
    xs.foldlM f ranks.toList = .ok (xs.foldl g ranks).toList := by
  induction xs generalizing ranks with
  | nil => rfl
  | cons a xs ih =>
    obtain ⟨hf, hg⟩ := h a List.mem_cons_self ranks hsize
    rw [List.foldlM_cons, hf, ok_bind, ih (fun b hb => h b (List.mem_cons_of_mem _ hb)) _ hg]
    rfl

theorem visit_eq {edges : List (Nat × Nat)} {n : Nat} (hn : ∀ e ∈ edges, e.1 < n ∧ e.2 < n) {u : Nat}
    (hu : u < n) {ranks : Array Nat} (hsize : ranks.size = n) :
    visit edges ranks.toList u = .ok (Rank.visit edges ranks u).toList := by
  rw [visit, fetch_toList (hsize ▸ hu), ok_bind]
  refine foldlM_toList (fun v hv ranks hsize => ?_) ranks hsize
  have hlt : v < ranks.size := hsize ▸ (hn _ (Rank.mem_successors.mp hv)).2
  refine ⟨?_, by rw [Rank.raise, Array.size_setIfInBounds, hsize]⟩
  rw [raise, fetch_toList hlt, ok_bind, store_toList hlt]
  rfl

theorem longestPath?_eq {sort : Nat → List (Nat × Nat) → Option (List Nat)}
    (hsort : Rank.IsSorter sort) {edges : List (Nat × Nat)} {n : Nat}
    (hn : ∀ e ∈ edges, e.1 < n ∧ e.2 < n) :
    longestPath? sort n edges = .ok (Rank.longestPath? n edges) := by
  have hedges : (edges.mapM fun e => do
      return (← fetch (List.range n) e.1, ← fetch (List.range n) e.2) : Read (List (Nat × Nat))) =
      .ok (edges.map id) := by
    refine mapM_eq fun e he => ?_
    obtain ⟨h1, h2⟩ := hn e he
    rw [fetch_eq (List.getElem?_range h1), ok_bind, fetch_eq (List.getElem?_range h2)]
    rfl
  rw [List.map_id] at hedges
  rw [longestPath?, hedges, ok_bind, Rank.longestPath?_eq_sweep hsort hn]
  cases hs : sort n edges with
  | none => rfl
  | some order =>
    -- a sorter that gives an order gives one of all nodes
    have hmem : ∀ u ∈ order, u < n := by
      by_cases hac : Rank.Acyclic edges
      · obtain ⟨order', hs', ho⟩ := hsort.sorts n edges hn hac
        rw [hs, Option.some.injEq] at hs'
        exact fun u hu => List.mem_range.mp (ho.perm.mem_iff.mp (hs' ▸ hu))
      · rw [hsort.fails n edges hn hac] at hs
        cases hs
    have hfold : order.foldlM (visit edges) (Array.replicate n 0).toList =
        .ok (order.foldl (Rank.visit edges) (Array.replicate n 0)).toList :=
      foldlM_toList (fun u hu ranks hsize => ⟨visit_eq hn (hmem u hu) hsize, by
        rw [Rank.size_visit, hsize]⟩) _ Array.size_replicate
    rw [Array.toList_replicate] at hfold
    simp only
    rw [hfold]
    rfl

/-- The ranks of the nodes of a graph. -/
def ranks (sort : Nat → List (Nat × Nat) → Option (List Nat)) (layout : Layout) (g : Graph) :
    Read (List Nat) :=
  let n := g.nodes.length
  let passes := layout.passes.getD n
  match layout.engine with
  | .relaxation => relaxation n g.edgeIndices passes
  | .longestPath => do
    match ← longestPath? sort n g.edgeIndices with
    | some ranks => return ranks
    | none => relaxation n g.edgeIndices passes

theorem ranks_eq {sort : Nat → List (Nat × Nat) → Option (List Nat)} (hsort : Rank.IsSorter sort)
    (layout : Layout) (g : Graph) : ranks sort layout g = .ok (layout.ranks g) := by
  have hn : ∀ e ∈ g.edgeIndices, e.1 < g.nodes.length ∧ e.2 < g.nodes.length :=
    fun _ => Graph.lt_of_mem_edgeIndices
  rw [ranks, Layout.ranks, relaxation_eq hn, longestPath?_eq hsort hn]
  cases layout.engine with
  | relaxation => rfl
  | longestPath => cases Rank.longestPath? g.nodes.length g.edgeIndices <;> rfl

/-! ### Places -/

/-- Adds the index of a node to the members of its rank. A rank that is new comes last. -/
def addMember (layers : List (Nat × List Nat)) (rank index : Nat) : List (Nat × List Nat) :=
  if layers.any fun layer => layer.1 == rank then
    layers.map fun layer => if layer.1 = rank then (rank, layer.2 ++ [index]) else layer
  else layers ++ [(rank, [index])]

/-- The ranks in use, each with the indices of its nodes. -/
def layers (ranks : List Nat) : List (Nat × List Nat) :=
  ranks.zipIdx.foldl (fun layers (rank, index) => addMember layers rank index) []

/-- The places to be written, layer by layer, each with the index of its node. -/
def writes (layout : Layout) (ranks : List Nat) : List (Nat × Point) :=
  (layers ranks).flatMap fun (rank, members) =>
    members.zipIdx.map fun (index, order) => (index, layout.position rank order)

/-- The places of the nodes with given ranks. -/
def positions (layout : Layout) (ranks : List Nat) : Read (List Point) :=
  (writes layout ranks).foldlM (fun positions write => store positions write.1 write.2)
    (List.replicate ranks.length .origin)

/-- Lays out a graph. -/
def apply (sort : Nat → List (Nat × Nat) → Option (List Nat)) (layout : Layout) (g : Graph) :
    Read Graph := do
  let ranks ← ranks sort layout g
  let positions ← positions layout ranks
  return { g with
    nodes := g.nodes.zipWith (fun n (rank, position) => { n with rank, position })
      (ranks.zip positions) }

/-- What the members of a layer are: the nodes of its rank, each at the place that is the number of
nodes of that rank before it. -/
structure IsLayer (ranks : List Nat) (layer : Nat × List Nat) : Prop where
  length : layer.2.length = ranks.count layer.1
  member : ∀ m ∈ layer.2.zipIdx,
    ranks[m.1]? = some layer.1 ∧ m.2 = (ranks.take m.1).count layer.1

/-- All nodes are collected by rank. -/
structure Collected (ranks : List Nat) (layers : List (Nat × List Nat)) : Prop where
  isLayer : ∀ layer ∈ layers, IsLayer ranks layer
  covers : ∀ i rank, ranks[i]? = some rank → ∃ layer ∈ layers, layer.1 = rank ∧ i ∈ layer.2

theorem IsLayer.member_append {ranks : List Nat} {layer : Nat × List Nat} (h : IsLayer ranks layer)
    (rank : Nat) : ∀ m ∈ layer.2.zipIdx,
      (ranks ++ [rank])[m.1]? = some layer.1 ∧
        m.2 = ((ranks ++ [rank]).take m.1).count layer.1 := by
  intro m hm
  obtain ⟨hget, hcount⟩ := h.member m hm
  have hlt := (List.getElem?_eq_some_iff.mp hget).1
  rw [List.getElem?_append_left hlt, List.take_append_of_le_length (Nat.le_of_lt hlt)]
  exact ⟨hget, hcount⟩

/-- A node of another rank leaves a layer as it is. -/
theorem IsLayer.append_other {ranks : List Nat} {layer : Nat × List Nat} (h : IsLayer ranks layer)
    {rank : Nat} (hne : layer.1 ≠ rank) : IsLayer (ranks ++ [rank]) layer := by
  refine ⟨?_, h.member_append rank⟩
  rw [h.length, List.count_append, List.count_singleton]
  simp [Ne.symm hne]

/-- A node of its own rank is the last member of a layer. -/
theorem IsLayer.append_self {ranks members : List Nat} {rank : Nat}
    (h : IsLayer ranks (rank, members)) :
    IsLayer (ranks ++ [rank]) (rank, members ++ [ranks.length]) := by
  refine ⟨?_, fun m hm => ?_⟩
  · rw [List.length_append, List.count_append, h.length]
    simp
  · rw [List.zipIdx_append, List.mem_append] at hm
    rcases hm with hm | hm
    · exact h.member_append rank m hm
    · rw [List.zipIdx_singleton, List.mem_singleton] at hm
      subst hm
      simp only [Nat.zero_add, List.getElem?_concat_length, List.take_left, true_and]
      exact h.length

theorem Collected.addMember {ranks : List Nat} {layers : List (Nat × List Nat)}
    (h : Collected ranks layers) (rank : Nat) :
    Collected (ranks ++ [rank]) (addMember layers rank ranks.length) := by
  have hget : ∀ i r, (ranks ++ [rank])[i]? = some r →
      ranks[i]? = some r ∨ i = ranks.length ∧ r = rank := by
    intro i r hi
    rw [List.getElem?_append] at hi
    split at hi
    · exact Or.inl hi
    · obtain ⟨hlt, heq⟩ := List.getElem?_eq_some_iff.mp hi
      simp only [List.length_singleton, List.getElem_singleton] at hlt heq
      exact Or.inr ⟨by omega, heq.symm⟩
  unfold Cursor.addMember
  by_cases hany : (layers.any fun layer => layer.1 == rank) = true
  · rw [if_pos hany]
    refine ⟨?_, fun i r hi => ?_⟩
    · intro layer hlayer
      obtain ⟨old, hold, rfl⟩ := List.mem_map.mp hlayer
      split
      · next heq =>
        subst heq
        exact (h.isLayer old hold).append_self
      · next hne => exact (h.isLayer old hold).append_other hne
    · rcases hget i r hi with hi | ⟨rfl, rfl⟩
      · obtain ⟨old, hold, rfl, hmem⟩ := h.covers i r hi
        refine ⟨_, List.mem_map_of_mem hold, ?_⟩
        split
        · next heq => exact ⟨heq.symm, List.mem_append_left _ hmem⟩
        · exact ⟨rfl, hmem⟩
      · obtain ⟨old, hold, hrank⟩ := List.any_eq_true.mp hany
        refine ⟨_, List.mem_map_of_mem hold, ?_⟩
        rw [if_pos (beq_iff_eq.mp hrank)]
        exact ⟨rfl, List.mem_append_right _ List.mem_cons_self⟩
  · have hnew : ∀ layer ∈ layers, layer.1 ≠ rank := fun layer hlayer heq =>
      hany (List.any_eq_true.mpr ⟨layer, hlayer, beq_iff_eq.mpr heq⟩)
    have hnone : rank ∉ ranks := fun hmem => by
      obtain ⟨i, hi⟩ := List.getElem?_of_mem hmem
      obtain ⟨layer, hlayer, heq, -⟩ := h.covers i rank hi
      exact hnew layer hlayer heq
    have hempty : IsLayer ranks (rank, []) := ⟨(List.count_eq_zero.mpr hnone).symm, by simp⟩
    rw [if_neg hany]
    refine ⟨fun layer hlayer => ?_, fun i r hi => ?_⟩
    · rcases List.mem_append.mp hlayer with hlayer | hlayer
      · exact (h.isLayer layer hlayer).append_other (hnew layer hlayer)
      · rw [List.mem_singleton.mp hlayer]
        exact hempty.append_self
    · rcases hget i r hi with hi | ⟨rfl, rfl⟩
      · obtain ⟨layer, hlayer, heq, hmem⟩ := h.covers i r hi
        exact ⟨layer, List.mem_append_left _ hlayer, heq, hmem⟩
      · exact ⟨_, List.mem_append_right _ List.mem_cons_self, rfl, List.mem_cons_self⟩

theorem collected_layers (ranks : List Nat) : Collected ranks (layers ranks) := by
  induction ranks using List.reverseRecOn with
  | nil => exact ⟨by simp [layers], by simp⟩
  | append_singleton ranks rank ih =>
    have hstep : layers (ranks ++ [rank]) = Cursor.addMember (layers ranks) rank ranks.length := by
      simp [layers, List.zipIdx_append, List.foldl_append]
    rw [hstep]
    exact ih.addMember rank

/-- Writing at indices what belongs there, in any order. -/
theorem foldlM_store {α : Type} {place : Nat → α} {ws : List (Nat × α)} {xs : List α}
    (hws : ∀ w ∈ ws, w.1 < xs.length ∧ w.2 = place w.1) :
    ∃ ys, ws.foldlM (fun xs w => store xs w.1 w.2) xs = .ok ys ∧ ys.length = xs.length ∧
      (∀ i ∈ ws.map (·.1), ys[i]? = some (place i)) ∧ ∀ i ∉ ws.map (·.1), ys[i]? = xs[i]? := by
  induction ws generalizing xs with
  | nil => exact ⟨xs, rfl, rfl, by simp, by simp⟩
  | cons w ws ih =>
    obtain ⟨hlt, hplace⟩ := hws w List.mem_cons_self
    have hlen : (xs.set w.1 w.2).length = xs.length := List.length_set
    have hrest : ∀ v ∈ ws, v.1 < (xs.set w.1 w.2).length ∧ v.2 = place v.1 := fun v hv => by
      rw [hlen]
      exact hws v (List.mem_cons_of_mem _ hv)
    obtain ⟨ys, hfold, hys, hin, hout⟩ := ih hrest
    refine ⟨ys, ?_, hys.trans hlen, fun i hi => ?_, fun i hi => ?_⟩
    · rw [List.foldlM_cons, store_eq hlt, ok_bind, hfold]
    · by_cases hmem : i ∈ ws.map (·.1)
      · exact hin i hmem
      · rw [List.map_cons, List.mem_cons] at hi
        obtain rfl := hi.resolve_right hmem
        rw [hout _ hmem, List.getElem?_set_self hlt, hplace]
    · rw [List.map_cons, List.mem_cons, not_or] at hi
      rw [hout i hi.2, List.getElem?_set_ne (Ne.symm hi.1)]

/-- **Every node gets its place** by its rank and the nodes of that rank before it. -/
theorem positions_eq (layout : Layout) (ranks : List Nat) :
    positions layout ranks =
      .ok ((withOrders [] ranks).map fun r => layout.position r.1 r.2) := by
  have hcol := collected_layers ranks
  let place (i : Nat) : Point :=
    layout.position (ranks.getD i 0) ((ranks.take i).count (ranks.getD i 0))
  have hmem : ∀ w ∈ writes layout ranks, w.1 < ranks.length ∧ w.2 = place w.1 := by
    intro w hw
    obtain ⟨layer, hlayer, hw⟩ := List.mem_flatMap.mp hw
    obtain ⟨m, hm, rfl⟩ := List.mem_map.mp hw
    obtain ⟨hget, hcount⟩ := (hcol.isLayer layer hlayer).member m hm
    refine ⟨(List.getElem?_eq_some_iff.mp hget).1, ?_⟩
    simp only [place, List.getD_eq_getElem?_getD, hget, Option.getD_some, ← hcount]
  have hbounds : ∀ w ∈ writes layout ranks,
      w.1 < (List.replicate ranks.length Point.origin).length ∧ w.2 = place w.1 := by
    simpa using hmem
  obtain ⟨ys, hfold, hlen, hget, -⟩ := foldlM_store hbounds
  rw [positions, hfold]
  congr 1
  refine List.ext_getElem? fun i => ?_
  rw [List.getElem?_map, getElem?_withOrders]
  by_cases hi : i < ranks.length
  · -- the node is a member of the layer of its rank, so its place was written
    have hrank : ranks[i]? = some ranks[i] := List.getElem?_eq_getElem hi
    have hwritten : i ∈ (writes layout ranks).map (·.1) := by
      obtain ⟨layer, hlayer, -, hmember⟩ := hcol.covers i _ hrank
      obtain ⟨k, hk⟩ := List.getElem?_of_mem hmember
      refine List.mem_map.mpr ⟨(i, layout.position layer.1 k), ?_, rfl⟩
      refine List.mem_flatMap.mpr ⟨layer, hlayer, List.mem_map.mpr ⟨(i, k), ?_, rfl⟩⟩
      exact List.mem_zipIdx_iff_getElem?.mpr hk
    rw [hget i hwritten, hrank]
    simp [place, List.getD_eq_getElem?_getD, hrank]
  · rw [List.getElem?_eq_none (by simpa [hlen] using hi), List.getElem?_eq_none (by omega)]
    rfl

theorem apply_eq {sort : Nat → List (Nat × Nat) → Option (List Nat)} (hsort : Rank.IsSorter sort)
    (layout : Layout) (g : Graph) : apply sort layout g = .ok (layout.apply g) := by
  have hzip : (layout.ranks g).zip ((withOrders [] (layout.ranks g)).map
      fun r => layout.position r.1 r.2) =
      (withOrders [] (layout.ranks g)).map fun r => (r.1, layout.position r.1 r.2) := by
    rw [← List.zip_map', map_fst_withOrders]
  rw [apply, ranks_eq hsort, ok_bind, positions_eq, ok_bind, hzip, List.zipWith_map_right]
  rfl

end PipelineDoc.Cursor
