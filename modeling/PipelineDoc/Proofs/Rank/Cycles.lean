import Mathlib.Data.List.Chain
import Mathlib.Data.List.Nodup
import PipelineDoc.Proofs.Cursor.Layout

/-!
# Ranks in the presence of cycles

A node is *fed by a cycle* when it lies on one or is reached from one. To a node that is fed by a
cycle there are walks of every length. A walk to any other node visits no node twice (it is a
*path*), so it has fewer edges than there are nodes. Relaxation tells the two kinds apart as soon as
it makes no fewer passes than there are nodes: a node that no cycle feeds gets the length of the
longest path to it, and all others get a rank that no path has. Main statement: `relaxation_bounds`.
-/

namespace PipelineDoc.Rank

variable {edges : List (Nat × Nat)}

/-- A node lies on a cycle, or is reached from one. -/
def FedByCycle (edges : List (Nat × Nat)) (v : Nat) : Prop :=
  ∃ u, Relation.TransGen (Joins edges) u u ∧ Relation.ReflTransGen (Joins edges) u v

/-- The nodes of a path to `v`, from `v` back to where it starts: each is entered from the next one,
and none is visited twice. -/
structure IsPath (edges : List (Nat × Nat)) (v : Nat) (earlier : List Nat) : Prop where
  chain : (v :: earlier).IsChain fun w u => Joins edges u w
  nodup : (v :: earlier).Nodup

/-- `d` is the number of edges of the longest path to `v`. -/
structure IsLongestPath (edges : List (Nat × Nat)) (v d : Nat) : Prop where
  path : ∃ earlier, IsPath edges v earlier ∧ earlier.length = d
  le : ∀ {earlier}, IsPath edges v earlier → earlier.length ≤ d

/-! ### Walks by their nodes -/

theorem walk_of_chain {v : Nat} {earlier : List Nat}
    (h : (v :: earlier).IsChain fun w u => Joins edges u w) : Walk edges earlier.length v := by
  induction earlier generalizing v with
  | nil => exact .nil v
  | cons u earlier ih =>
    obtain ⟨hjoin, hrest⟩ := List.isChain_cons_cons.mp h
    exact .snoc (ih hrest) hjoin

theorem Walk.exists_chain {k v : Nat} (w : Walk edges k v) :
    ∃ earlier : List Nat, earlier.length = k ∧
      (v :: earlier).IsChain fun w u => Joins edges u w := by
  induction w with
  | nil v => exact ⟨[], rfl, .singleton v⟩
  | @snoc k u v _ edge ih =>
    obtain ⟨earlier, hlength, hchain⟩ := ih
    exact ⟨u :: earlier, congrArg (· + 1) hlength, List.isChain_cons_cons.mpr ⟨edge, hchain⟩⟩

theorem reaches_of_mem_chain {u v : Nat} {earlier : List Nat}
    (h : (v :: earlier).IsChain fun w u => Joins edges u w) (hu : u ∈ earlier) :
    Relation.TransGen (Joins edges) u v := by
  induction earlier generalizing v with
  | nil => cases hu
  | cons w earlier ih =>
    obtain ⟨hjoin, hrest⟩ := List.isChain_cons_cons.mp h
    rcases List.mem_cons.mp hu with rfl | hu
    · exact .single hjoin
    · exact (ih hrest hu).tail hjoin

/-! ### Cycles -/

theorem FedByCycle.tail {u v : Nat} (h : FedByCycle edges u) (he : Joins edges u v) :
    FedByCycle edges v := by
  obtain ⟨c, hcycle, hreach⟩ := h
  exact ⟨c, hcycle, hreach.tail he⟩

theorem FedByCycle.exists_pred {v : Nat} (h : FedByCycle edges v) :
    ∃ u, Joins edges u v ∧ FedByCycle edges u := by
  obtain ⟨c, hcycle, hreach⟩ := h
  rcases hreach.cases_tail with rfl | ⟨u, hreach, he⟩
  · -- the node is on the cycle, and so is the last one before it
    obtain ⟨u, hreach, he⟩ := Relation.TransGen.tail'_iff.mp hcycle
    exact ⟨u, he, v, hcycle, hreach⟩
  · exact ⟨u, he, c, hcycle, hreach⟩

/-- **Round and round**: walks of every length lead to a node that is fed by a cycle. -/
theorem FedByCycle.walk {v : Nat} (h : FedByCycle edges v) (k : Nat) : Walk edges k v := by
  induction k generalizing v with
  | zero => exact .nil v
  | succ k ih =>
    obtain ⟨u, he, hu⟩ := h.exists_pred
    exact .snoc (ih hu) he

/-- **Without a cycle behind it** a walk visits no node twice. -/
theorem nodup_of_not_fedByCycle {v : Nat} {earlier : List Nat} (hv : ¬ FedByCycle edges v)
    (h : (v :: earlier).IsChain fun w u => Joins edges u w) : (v :: earlier).Nodup := by
  induction earlier generalizing v with
  | nil => exact List.nodup_singleton v
  | cons u earlier ih =>
    obtain ⟨hjoin, hrest⟩ := List.isChain_cons_cons.mp h
    refine List.nodup_cons.mpr ⟨fun hmem => ?_, ih (fun hu => hv (hu.tail hjoin)) hrest⟩
    exact hv ⟨v, reaches_of_mem_chain h hmem, .refl⟩

section

variable {n : Nat} (hn : ∀ e ∈ edges, e.1 < n ∧ e.2 < n)
include hn

/-- A path visits each of the `n` nodes at most once, so it has fewer than `n` edges. -/
theorem IsPath.length_lt {v : Nat} (hv : v < n) {earlier : List Nat} (h : IsPath edges v earlier) :
    earlier.length < n := by
  have hbelow : v :: earlier ⊆ List.range n := by
    intro u hu
    rw [List.mem_range]
    rcases List.mem_cons.mp hu with rfl | hu
    · exact hv
    · obtain ⟨w, he, -⟩ := Relation.TransGen.head'_iff.mp (reaches_of_mem_chain h.chain hu)
      exact (hn _ he).1
  have hlength := (h.nodup.subperm hbelow).length_le
  rw [List.length_cons, List.length_range] at hlength
  omega

/-- **A walk with no cycle behind it** is a path, and so it is short. -/
theorem Walk.exists_path {k v : Nat} (w : Walk edges k v) (hv : v < n) (hfed : ¬ FedByCycle edges v) :
    k < n ∧ ∃ earlier, IsPath edges v earlier ∧ earlier.length = k := by
  obtain ⟨earlier, rfl, hchain⟩ := w.exists_chain
  have hpath : IsPath edges v earlier := ⟨hchain, nodup_of_not_fedByCycle hfed hchain⟩
  exact ⟨hpath.length_lt hn hv, earlier, hpath, rfl⟩

end

/-! ### Ranks -/

theorem getElem?_relaxation {n v : Nat} (hv : v < n) (p : Nat) :
    (relaxation n edges p)[v]? = some (((pass edges)^[p] (Array.replicate n 0)).getD v 0) := by
  have hlength : v < (relaxation n edges p).length := by rwa [length_relaxation]
  rw [List.getElem?_eq_getElem hlength, getElem_relaxation]

section

variable {n : Nat} (hn : ∀ e ∈ edges, e.1 < n ∧ e.2 < n)
include hn

/-- **Where no cycle leads to**, enough passes find the longest path, and all edges to the node are
in order. -/
theorem isLongestPath_iterate_pass {p v : Nat} (hv : v < n) (hp : n ≤ p)
    (hfed : ¬ FedByCycle edges v) :
    let rank := fun u => ((pass edges)^[p] (Array.replicate n 0)).getD u 0
    IsLongestPath edges v (rank v) ∧ rank v < n ∧
      ∀ u, (u, v) ∈ edges → rank u + 1 ≤ rank v := by
  intro rank
  have hattained : Attained edges ((pass edges)^[p] (Array.replicate n 0)) :=
    (attained_replicate edges n).iterate_pass p
  -- all walks to `v` are shorter than the number of passes, so each of them has been found
  have hfound : ∀ {k}, Walk edges k v → k ≤ rank v := by
    intro k w
    have hk := (w.exists_path hn hv hfed).1
    exact w.le_getD_iterate_pass _ (by simpa using fun e he => (hn e he).2) (by omega)
  obtain ⟨hlt, hpath⟩ := (hattained v).exists_path hn hv hfed
  refine ⟨⟨hpath, fun h => hfound (walk_of_chain h.chain)⟩, hlt, fun u he => ?_⟩
  exact hfound (.snoc (hattained u) he)

/-- **Ranks by relaxation, from both sides.** On any graph with edges between nodes below `n` the
loop over the edges, which ends early after a pass that notes no change, gives what all passes give.
The rank of every node is the length of a walk to it, and no lower than any walk of at most as many
edges as there are passes. With no fewer passes than nodes, a node that no cycle feeds has as its
rank the length of the longest path to it, which is below `n` and above the ranks of all nodes with
an edge to it, and a node that a cycle feeds has a rank of at least `n`. -/
theorem relaxation_bounds (p : Nat) :
    Cursor.relaxation n edges p = .ok (relaxation n edges p) ∧
      relaxation n edges p = ((pass edges)^[p] (Array.replicate n 0)).toList ∧
      ∀ v < n, ∃ r, (relaxation n edges p)[v]? = some r ∧ Walk edges r v ∧
        (∀ k ≤ p, Walk edges k v → k ≤ r) ∧
        (n ≤ p → ¬ FedByCycle edges v → IsLongestPath edges v r ∧ r < n ∧
          ∀ u s, (u, v) ∈ edges → (relaxation n edges p)[u]? = some s → s + 1 ≤ r) ∧
        (n ≤ p → FedByCycle edges v → n ≤ r) := by
  have hfound : ∀ {k v}, Walk edges k v → k ≤ p →
      k ≤ ((pass edges)^[p] (Array.replicate n 0)).getD v 0 := fun w hk =>
    w.le_getD_iterate_pass _ (by simpa using fun e he => (hn e he).2) hk
  refine ⟨Cursor.relaxation_eq hn p, congrArg Array.toList (relax_eq_iterate ..), fun v hv => ?_⟩
  refine ⟨_, getElem?_relaxation hv p, (attained_replicate edges n).iterate_pass p v,
    fun k hk w => hfound w hk, fun hp hfed => ?_, fun hp hfed => hfound (hfed.walk n) hp⟩
  obtain ⟨hlongest, hlt, hpred⟩ := isLongestPath_iterate_pass hn hv hp hfed
  refine ⟨hlongest, hlt, fun u s he hs => ?_⟩
  rw [getElem?_relaxation (hn _ he).1, Option.some.injEq] at hs
  exact hs ▸ hpred u he

end

/-- A chain of three nodes, with its last edge listed first and one edge listed twice, beside a
cycle of two nodes with a way out of it. -/
theorem relaxation_bounds_mixed :
    let edges := [(1, 2), (0, 1), (3, 4), (4, 3), (0, 1), (4, 5)]
    (∀ e ∈ edges, e.1 < 6 ∧ e.2 < 6) ∧
      (¬ FedByCycle edges 2 ∧ (relaxation 6 edges 6)[2]? = some 2 ∧ IsLongestPath edges 2 2) ∧
      FedByCycle edges 5 ∧ ∃ r, (relaxation 6 edges 6)[5]? = some r ∧ Walk edges r 5 ∧ 6 ≤ r := by
  intro edges
  have hn : ∀ e ∈ edges, e.1 < 6 ∧ e.2 < 6 := by decide
  have hfree : ¬ FedByCycle edges 2 := by
    intro h
    -- a way back from the end of the chain ends at its first node
    have hback : ∀ e ∈ edges, (e.2 = 2 → e.1 = 1) ∧ (e.2 = 1 → e.1 = 0) ∧ e.2 ≠ 0 := by decide
    obtain ⟨a, ha, h⟩ := h.exists_pred
    obtain rfl : a = 1 := (hback _ ha).1 rfl
    obtain ⟨b, hb, h⟩ := h.exists_pred
    obtain rfl : b = 0 := (hback _ hb).2.1 rfl
    obtain ⟨c, hc, -⟩ := h.exists_pred
    exact (hback _ hc).2.2 rfl
  have hfed : FedByCycle edges 5 := by
    have h34 : Joins edges 3 4 := by decide
    have h43 : Joins edges 4 3 := by decide
    have h45 : Joins edges 4 5 := by decide
    exact ⟨3, .tail (.single h34) h43, .tail (.single h34) h45⟩
  obtain ⟨-, -, hranks⟩ := relaxation_bounds hn 6
  obtain ⟨r, hr, -, -, hlongest, -⟩ := hranks 2 (by decide)
  obtain ⟨s, hs, hwalk, -, -, hlarge⟩ := hranks 5 (by decide)
  have hrank : (relaxation 6 edges 6)[2]? = some 2 := by decide
  rw [hrank, Option.some.injEq] at hr
  subst hr
  exact ⟨hn, ⟨hfree, hrank, (hlongest (by decide) hfree).1⟩, hfed, s, hs, hwalk,
    hlarge (by decide) hfed⟩

end PipelineDoc.Rank
