import Mathlib.Data.Fintype.Card
import Mathlib.Data.Fintype.EquivFin
import Mathlib.Logic.Relation
import Mathlib.Order.WellFounded
import PipelineDoc.Proofs.Rank.Walks

/-!
# Layering

The layers of a graph, counted from zero, are the depths of its nodes (`isDepth_longestPath?`).
There is a layering exactly when there is no cycle (`longestPath?_isSome_iff`).

Both are shown for the nodes that are left after some rounds: the layer of a node among them is one
above the layer of some predecessor among them, and above the layers of all.
-/

namespace PipelineDoc.Rank

variable {edges : List (Nat × Nat)}

/-- No node is reached from itself. -/
def Acyclic (edges : List (Nat × Nat)) : Prop :=
  ∀ v, ¬ Relation.TransGen (Joins edges) v v

theorem Closed.acyclic {rank : Nat → Nat} (h : Closed edges rank) : Acyclic edges := by
  have lt : ∀ {u v}, Relation.TransGen (Joins edges) u v → rank u < rank v := by
    intro u v huv
    induction huv with
    | single e => exact h _ e
    | tail _ e ih => exact Nat.lt_trans ih (h _ e)
  exact fun v hv => Nat.lt_irrefl _ (lt hv)

/-- The number of the layer that holds a node. -/
def layerOf (layers : List (List Nat)) (v : Nat) : Nat :=
  layers.findIdx fun layer => layer.contains v

theorem layerOf_cons (free : List Nat) (layers : List (List Nat)) (v : Nat) :
    layerOf (free :: layers) v = if v ∈ free then 0 else layerOf layers v + 1 := by
  simp only [layerOf, List.findIdx_cons, List.contains_eq_mem]
  by_cases h : v ∈ free <;> simp [h]

/-- Whether a node has an incoming edge from the nodes that are left. -/
def blocked (edges : List (Nat × Nat)) (left : List Nat) (v : Nat) : Bool :=
  (edges.filter fun e => left.contains e.1).any fun e => e.2 == v

theorem blocked_iff {left : List Nat} {v : Nat} :
    blocked edges left v = true ↔ ∃ u ∈ left, (u, v) ∈ edges := by
  simp only [blocked, List.any_eq_true, List.mem_filter, List.contains_eq_mem, decide_eq_true_eq,
    beq_iff_eq, Prod.exists]
  constructor
  · rintro ⟨u, w, ⟨he, hu⟩, rfl⟩
    exact ⟨u, hu, he⟩
  · rintro ⟨u, hu, he⟩
    exact ⟨u, v, ⟨he, hu⟩, rfl⟩

/-- **One round**: the free nodes are the first layer, and the blocked ones go on. -/
theorem layers?_succ (edges : List (Nat × Nat)) (rounds : Nat) {left : List Nat} (h : left ≠ []) :
    layers? edges (rounds + 1) left =
      if left.filter (fun v => !blocked edges left v) = [] then none
      else (layers? edges rounds (left.filter (blocked edges left))).map
        (left.filter (fun v => !blocked edges left v) :: ·) := by
  obtain ⟨v, left, rfl⟩ := List.exists_cons_of_ne_nil h
  rw [layers?, List.partition_eq_filter_filter]
  · simp only [List.isEmpty_iff]
    rfl
  · simp

/-- The layers of the nodes that are left, by their predecessors among these nodes. -/
structure Layered (edges : List (Nat × Nat)) (left : List Nat) (layers : List (List Nat)) : Prop where
  lt_length : ∀ v ∈ left, layerOf layers v < layers.length
  closed : ∀ u ∈ left, ∀ v ∈ left, (u, v) ∈ edges → layerOf layers u + 1 ≤ layerOf layers v
  pred : ∀ v ∈ left, layerOf layers v ≠ 0 →
    ∃ u ∈ left, (u, v) ∈ edges ∧ layerOf layers u + 1 = layerOf layers v

theorem Layered.cons {left : List Nat} {layers : List (List Nat)}
    (h : Layered edges (left.filter (blocked edges left)) layers) :
    Layered edges left (left.filter (fun v => !blocked edges left v) :: layers) := by
  have free : ∀ v ∈ left, blocked edges left v = false →
      layerOf (left.filter (fun v => !blocked edges left v) :: layers) v = 0 := by
    intro v hv hb
    rw [layerOf_cons, if_pos (by simp [hv, hb])]
  have next : ∀ v, blocked edges left v = true →
      layerOf (left.filter (fun v => !blocked edges left v) :: layers) v = layerOf layers v + 1 := by
    intro v hb
    rw [layerOf_cons, if_neg (by simp [hb])]
  have mem : ∀ v ∈ left, blocked edges left v = true → v ∈ left.filter (blocked edges left) :=
    fun v hv hb => List.mem_filter.mpr ⟨hv, hb⟩
  refine ⟨fun v hv => ?_, fun u hu v hv he => ?_, fun v hv hne => ?_⟩
  · cases hb : blocked edges left v with
    | false => rw [free v hv hb]; simp
    | true =>
      have := h.lt_length v (mem v hv hb)
      rw [next v hb, List.length_cons]
      omega
  · have hbv : blocked edges left v = true := blocked_iff.mpr ⟨u, hu, he⟩
    rw [next v hbv]
    cases hbu : blocked edges left u with
    | false => rw [free u hu hbu]; omega
    | true =>
      have := h.closed u (mem u hu hbu) v (mem v hv hbv) he
      rw [next u hbu]
      omega
  · have hbv : blocked edges left v = true := by
      by_contra hb
      exact hne (free v hv (by simpa using hb))
    obtain ⟨u, hu, he⟩ := blocked_iff.mp hbv
    rw [next v hbv]
    by_cases h0 : layerOf layers v = 0
    · -- a predecessor that is blocked as well would lie in a lower layer
      refine ⟨u, hu, he, ?_⟩
      cases hbu : blocked edges left u with
      | false => rw [free u hu hbu, h0]
      | true =>
        have := h.closed u (mem u hu hbu) v (mem v hv hbv) he
        omega
    · obtain ⟨u, hu, he, hl⟩ := h.pred v (mem v hv hbv) h0
      obtain ⟨hu, hbu⟩ := List.mem_filter.mp hu
      exact ⟨u, hu, he, by rw [next u hbu, hl]⟩

theorem layered_of_layers? {rounds : Nat} {left : List Nat} {layers : List (List Nat)}
    (h : layers? edges rounds left = some layers) :
    Layered edges left layers ∧ layers.length ≤ rounds := by
  induction rounds generalizing left layers with
  | zero =>
    cases left with
    | nil =>
      simp only [layers?, Option.some.injEq] at h
      subst h
      exact ⟨⟨by simp, by simp, by simp⟩, Nat.le_refl _⟩
    | cons v left => simp [layers?] at h
  | succ rounds ih =>
    by_cases hl : left = []
    · subst hl
      simp only [layers?, Option.some.injEq] at h
      subst h
      exact ⟨⟨by simp, by simp, by simp⟩, by simp⟩
    · rw [layers?_succ edges rounds hl] at h
      split_ifs at h
      obtain ⟨layers, hs, rfl⟩ := Option.map_eq_some_iff.mp h
      obtain ⟨hlay, hlen⟩ := ih hs
      exact ⟨hlay.cons, by simp only [List.length_cons]; omega⟩

/-- Without a cycle some left node is free: a node that no other left node leads to. -/
theorem Acyclic.exists_free (h : Acyclic edges) {left : List Nat} (hl : left ≠ []) :
    ∃ v ∈ left, blocked edges left v = false := by
  -- being reached is a strict order on the finitely many left nodes, so one of them is minimal
  let reach : { v // v ∈ left } → { v // v ∈ left } → Prop := fun u v =>
    Relation.TransGen (Joins edges) u.1 v.1
  have : IsTrans _ reach := ⟨fun _ _ _ huv hvw => huv.trans hvw⟩
  have : Std.Irrefl reach := ⟨fun v hv => h v.1 hv⟩
  obtain ⟨a, ha⟩ := List.exists_mem_of_ne_nil left hl
  obtain ⟨⟨v, hv⟩, -, hmin⟩ :=
    (Finite.wellFounded_of_trans_of_irrefl reach).has_min Set.univ ⟨⟨a, ha⟩, trivial⟩
  refine ⟨v, hv, ?_⟩
  by_contra hb
  obtain ⟨u, hu, he⟩ := blocked_iff.mp (by simpa using hb)
  exact hmin ⟨u, hu⟩ trivial (.single he)

theorem Acyclic.layers?_isSome (h : Acyclic edges) :
    ∀ (rounds : Nat) (left : List Nat), left.length ≤ rounds → (layers? edges rounds left).isSome
  | rounds, [], _ => by cases rounds <;> simp [layers?]
  | 0, _ :: _, hlen => by simp at hlen
  | rounds + 1, v :: left, hlen => by
    obtain ⟨f, hf, hfree⟩ := h.exists_free (List.cons_ne_nil v left)
    have hfm : f ∈ (v :: left).filter fun w => !blocked edges (v :: left) w := by
      simp [hfree, List.mem_cons.mp hf]
    have hlt : ((v :: left).filter (blocked edges (v :: left))).length < (v :: left).length :=
      List.length_filter_lt_length_iff_exists.mpr ⟨f, hf, by simp [hfree]⟩
    rw [layers?_succ edges rounds (List.cons_ne_nil v left), if_neg (List.ne_nil_of_mem hfm),
      Option.isSome_map]
    exact h.layers?_isSome rounds _ (by omega)

section
variable {n : Nat} (hn : ∀ e ∈ edges, e.1 < n ∧ e.2 < n)
include hn

/-- **Layers are depths.** -/
theorem isDepth_longestPath? {ranks : List Nat} (h : longestPath? n edges = some ranks) :
    ranks.length = n ∧ ∃ rank : Nat → Nat, ranks = (List.range n).map rank ∧ Closed edges rank ∧
      ∀ v < n, IsDepth edges v (rank v) ∧ rank v < n := by
  obtain ⟨layers, hs, rfl⟩ := Option.map_eq_some_iff.mp h
  obtain ⟨hlay, hlen⟩ := layered_of_layers? hs
  have hcl : Closed edges (layerOf layers) := fun e he =>
    hlay.closed e.1 (by simpa using (hn e he).1) e.2 (by simpa using (hn e he).2) he
  have walk : ∀ d, ∀ v < n, layerOf layers v = d → Walk edges d v := by
    intro d
    induction d with
    | zero => exact fun v _ _ => .nil v
    | succ d ih =>
      intro v hv hd
      obtain ⟨u, hu, he, hud⟩ := hlay.pred v (by simpa using hv) (by omega)
      exact .snoc (ih u (by simpa using hu) (by omega)) he
  refine ⟨by simp, layerOf layers, rfl, hcl, fun v hv => ⟨.of_closed hcl (walk _ v hv rfl), ?_⟩⟩
  exact Nat.lt_of_lt_of_le (hlay.lt_length v (by simpa using hv)) hlen

/-- **There is a layering exactly when there is no cycle.** -/
theorem longestPath?_isSome_iff : (longestPath? n edges).isSome ↔ Acyclic edges := by
  constructor
  · intro h
    obtain ⟨ranks, hr⟩ := Option.isSome_iff_exists.mp h
    obtain ⟨-, rank, -, hcl, -⟩ := isDepth_longestPath? hn hr
    exact hcl.acyclic
  · intro h
    rw [longestPath?, Option.isSome_map]
    exact h.layers?_isSome n _ (by simp)

end

end PipelineDoc.Rank
