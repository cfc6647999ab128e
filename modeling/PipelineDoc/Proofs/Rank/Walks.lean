import Mathlib.Logic.Function.Iterate
import Mathlib.Tactic.SplitIfs
import PipelineDoc.Graph.Rank

/-!
# Walks and depths

A *walk* of length `k` to `v` follows `k` edges and ends at `v`; it may start anywhere and use an
edge more than once. The *depth* of a node is the length of the longest walk to it, where there is
one. A ranking is *attained* when every rank is the length of a walk, and *closed* when every edge
leads to a higher rank. A ranking that is both gives the depths (`IsDepth.of_closed`), so any two
such rankings agree.

Relaxation keeps a ranking attained whatever the edges are, and after `p` passes it has found all
walks of at most `p` edges. So it gives the depths as soon as the passes are no fewer than the
longest walk (`isDepth_iterate_pass`).
-/

namespace PipelineDoc.Rank

variable {edges : List (Nat × Nat)}

/-- There is an edge from a node to another one. -/
def Joins (edges : List (Nat × Nat)) (u v : Nat) : Prop := (u, v) ∈ edges

instance (edges : List (Nat × Nat)) (u v : Nat) : Decidable (Joins edges u v) :=
  inferInstanceAs (Decidable ((u, v) ∈ edges))

/-- `k` edges lead to `v`, one after the other. -/
inductive Walk (edges : List (Nat × Nat)) : (k v : Nat) → Prop
  | nil (v : Nat) : Walk edges 0 v
  | snoc {k u v : Nat} (walk : Walk edges k u) (edge : (u, v) ∈ edges) : Walk edges (k + 1) v

/-- `d` is the length of the longest walk to `v`. -/
structure IsDepth (edges : List (Nat × Nat)) (v d : Nat) : Prop where
  walk : Walk edges d v
  le : ∀ {k}, Walk edges k v → k ≤ d

theorem IsDepth.unique {v d d' : Nat} (h : IsDepth edges v d) (h' : IsDepth edges v d') : d = d' :=
  Nat.le_antisymm (h'.le h.walk) (h.le h'.walk)

/-- Every edge leads to a higher rank. -/
def Closed (edges : List (Nat × Nat)) (rank : Nat → Nat) : Prop :=
  ∀ e ∈ edges, rank e.1 + 1 ≤ rank e.2

theorem Walk.le_of_closed {rank : Nat → Nat} (h : Closed edges rank) {k v : Nat}
    (w : Walk edges k v) : k ≤ rank v := by
  induction w with
  | nil => exact Nat.zero_le _
  | snoc _ edge ih =>
    have := h _ edge
    simp only at this
    omega

/-- **An attained and closed ranking gives the depths.** -/
theorem IsDepth.of_closed {rank : Nat → Nat} (h : Closed edges rank) {v : Nat}
    (w : Walk edges (rank v) v) : IsDepth edges v (rank v) :=
  ⟨w, fun w' => w'.le_of_closed h⟩

/-! ### Lifting -/

@[simp] theorem size_lift (ranks : Array Nat) (e : Nat × Nat) : (lift ranks e).size = ranks.size := by
  simp [lift]

theorem getD_lift (ranks : Array Nat) (e : Nat × Nat) (v : Nat) :
    (lift ranks e).getD v 0 =
      if e.2 = v ∧ v < ranks.size then max (ranks.getD v 0) (ranks.getD e.1 0 + 1)
      else ranks.getD v 0 := by
  unfold lift
  by_cases hv : v < ranks.size
  · by_cases he : e.2 = v
    · subst he
      simp [Array.getD, hv]
    · simp [Array.getD, hv, he]
  · simp [Array.getD, hv]

theorem le_getD_lift (ranks : Array Nat) (e : Nat × Nat) (v : Nat) :
    ranks.getD v 0 ≤ (lift ranks e).getD v 0 := by
  rw [getD_lift]
  split_ifs <;> omega

/-- Every rank is the length of a walk. -/
def Attained (edges : List (Nat × Nat)) (ranks : Array Nat) : Prop :=
  ∀ v, Walk edges (ranks.getD v 0) v

theorem attained_replicate (edges : List (Nat × Nat)) (n : Nat) :
    Attained edges (Array.replicate n 0) := by
  intro v
  have h : (Array.replicate n 0).getD v 0 = 0 := by
    by_cases hv : v < n <;> simp [Array.getD, hv]
  rw [h]
  exact .nil v

theorem Attained.lift {ranks : Array Nat} (h : Attained edges ranks) {e : Nat × Nat}
    (he : e ∈ edges) : Attained edges (lift ranks e) := by
  intro v
  rw [getD_lift]
  split_ifs with hv
  · obtain ⟨rfl, -⟩ := hv
    rcases Nat.le_total (ranks.getD e.2 0) (ranks.getD e.1 0 + 1) with hle | hle
    · rw [Nat.max_eq_right hle]
      exact .snoc (h e.1) he
    · rw [Nat.max_eq_left hle]
      exact h e.2
  · exact h v

/-! ### Passes -/

/-- What a pass over some of the edges does: it keeps the size, lowers no rank, keeps the ranking
attained, and lifts the target of each edge above the rank that the source had before. -/
theorem foldl_lift (es : List (Nat × Nat)) (ranks : Array Nat) :
    (es.foldl lift ranks).size = ranks.size ∧
      (∀ v, ranks.getD v 0 ≤ (es.foldl lift ranks).getD v 0) ∧
      ∀ e ∈ es, e.2 < ranks.size → ranks.getD e.1 0 + 1 ≤ (es.foldl lift ranks).getD e.2 0 := by
  induction es generalizing ranks with
  | nil => simp
  | cons e es ih =>
    obtain ⟨hsize, hle, hedge⟩ := ih (lift ranks e)
    rw [size_lift] at hsize hedge
    refine ⟨hsize, fun v => Nat.le_trans (le_getD_lift ranks e v) (hle v), fun e' he' hlt => ?_⟩
    rw [List.foldl_cons]
    rcases List.mem_cons.mp he' with rfl | he'
    · have h := hle e'.2
      rw [getD_lift, if_pos ⟨rfl, hlt⟩] at h
      omega
    · have h := hedge e' he' hlt
      have := le_getD_lift ranks e e'.1
      omega

theorem Attained.foldl_lift {es : List (Nat × Nat)} (hes : ∀ e ∈ es, e ∈ edges) {ranks : Array Nat}
    (h : Attained edges ranks) : Attained edges (es.foldl Rank.lift ranks) := by
  induction es generalizing ranks with
  | nil => exact h
  | cons e es ih =>
    rw [List.foldl_cons]
    exact ih (fun e' he' => hes e' (List.mem_cons_of_mem _ he')) (h.lift (hes e List.mem_cons_self))

@[simp] theorem size_pass (edges : List (Nat × Nat)) (ranks : Array Nat) :
    (pass edges ranks).size = ranks.size := (foldl_lift edges ranks).1

theorem le_getD_pass (edges : List (Nat × Nat)) (ranks : Array Nat) (v : Nat) :
    ranks.getD v 0 ≤ (pass edges ranks).getD v 0 := (foldl_lift edges ranks).2.1 v

theorem lt_getD_pass {e : Nat × Nat} (he : e ∈ edges) (ranks : Array Nat) (hlt : e.2 < ranks.size) :
    ranks.getD e.1 0 + 1 ≤ (pass edges ranks).getD e.2 0 := (foldl_lift edges ranks).2.2 e he hlt

theorem Attained.pass {ranks : Array Nat} (h : Attained edges ranks) :
    Attained edges (pass edges ranks) := h.foldl_lift fun _ he => he

/-- **The early stop is not seen**: relaxation gives what the full number of passes gives. -/
theorem relax_eq_iterate (edges : List (Nat × Nat)) (passes : Nat) (ranks : Array Nat) :
    relax edges passes ranks = (pass edges)^[passes] ranks := by
  induction passes generalizing ranks with
  | zero => rfl
  | succ passes ih =>
    rw [relax, Function.iterate_succ_apply]
    split_ifs with h
    · rw [h, Function.iterate_fixed h]
    · exact ih _

@[simp] theorem size_iterate_pass (edges : List (Nat × Nat)) (p : Nat) (ranks : Array Nat) :
    ((pass edges)^[p] ranks).size = ranks.size := by
  induction p with
  | zero => rfl
  | succ p ih => rw [Function.iterate_succ_apply', size_pass, ih]

theorem Attained.iterate_pass {ranks : Array Nat} (h : Attained edges ranks) (p : Nat) :
    Attained edges ((Rank.pass edges)^[p] ranks) := by
  induction p with
  | zero => exact h
  | succ p ih =>
    rw [Function.iterate_succ_apply']
    exact ih.pass

/-- **A pass finds one more step of every walk**: after `p` passes no rank is below the length of a
walk of at most `p` edges. -/
theorem Walk.le_getD_iterate_pass {k v : Nat} (w : Walk edges k v) (ranks : Array Nat)
    (hlt : ∀ e ∈ edges, e.2 < ranks.size) {p : Nat} (hp : k ≤ p) :
    k ≤ ((Rank.pass edges)^[p] ranks).getD v 0 := by
  induction w generalizing p with
  | nil => exact Nat.zero_le _
  | @snoc k u v _ edge ih =>
    obtain ⟨q, rfl⟩ : ∃ q, p = q + 1 := ⟨p - 1, by omega⟩
    rw [Function.iterate_succ_apply']
    have hu := ih (p := q) (by omega)
    have hv := lt_getD_pass edge ((Rank.pass edges)^[q] ranks)
      (by rw [size_iterate_pass]; exact hlt _ edge)
    simp only at hv
    omega

/-- **Relaxation finds the depths** with no fewer passes than the longest walk has edges. -/
theorem isDepth_iterate_pass {n p v d : Nat} (hlt : ∀ e ∈ edges, e.2 < n)
    (hd : IsDepth edges v d) (hp : d ≤ p) :
    ((pass edges)^[p] (Array.replicate n 0)).getD v 0 = d := by
  have hle := hd.walk.le_getD_iterate_pass (Array.replicate n 0) (by simpa using hlt) hp
  have hge := hd.le ((attained_replicate edges n).iterate_pass p v)
  omega

@[simp] theorem length_relaxation (n : Nat) (edges : List (Nat × Nat)) (p : Nat) :
    (relaxation n edges p).length = n := by
  simp [relaxation, relax_eq_iterate]

theorem getElem_relaxation {n p v : Nat} (hv : v < (relaxation n edges p).length) :
    (relaxation n edges p)[v] = ((pass edges)^[p] (Array.replicate n 0)).getD v 0 := by
  have hv' : v < n := by simpa using hv
  simp [relaxation, relax_eq_iterate, Array.getD, hv']

end PipelineDoc.Rank
