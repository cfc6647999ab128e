import PipelineDoc.Proofs.Layout.Engines

/-!
# Coordinates

A coordinate is computed in exact integers that are cut off at the ends of the 32-bit range after
each operation (`toInt_coordinate`). Cutting off keeps the order of integers, so coordinates never
wrap around: they grow with the rank and with the place in the column. Where nothing is cut off they
are exact, and then the nodes of a column, which are counted from zero on, stand apart from each
other. Main statement: `apply_coordinates`.
-/

namespace PipelineDoc

/-! ### Cutting off -/

/-- An integer is in the 32-bit range. -/
def FitsInt32 (n : Int) : Prop := Int32.minValue.toInt ≤ n ∧ n ≤ Int32.maxValue.toInt

instance : DecidablePred FitsInt32 := fun _ => inferInstanceAs (Decidable (_ ∧ _))

/-- The integer in the 32-bit range that is closest to `n`. -/
def clamp (n : Int) : Int := max Int32.minValue.toInt (min n Int32.maxValue.toInt)

theorem fitsInt32_clamp (n : Int) : FitsInt32 (clamp n) := by
  have := Int32.toInt_minValue
  have := Int32.toInt_maxValue
  unfold FitsInt32 clamp
  omega

theorem FitsInt32.clamp_eq {n : Int} (h : FitsInt32 n) : clamp n = n := by
  unfold FitsInt32 at h
  unfold clamp
  omega

theorem clamp_mono {m n : Int} (h : m ≤ n) : clamp m ≤ clamp n := by
  unfold clamp
  omega

theorem toInt_saturate (n : Int) : (saturate n).toInt = clamp n := by
  obtain ⟨hmin, hmax⟩ := fitsInt32_clamp n
  rw [Int32.toInt_minValue] at hmin
  rw [Int32.toInt_maxValue] at hmax
  exact Int32.toInt_ofInt_of_le hmin (Int.lt_of_le_sub_one hmax)

/-! ### One coordinate -/

/-- A coordinate is cut off three times: the number of steps, the way, and the sum. -/
theorem toInt_coordinate (margin spacing : Int32) (step : Nat) :
    (coordinate margin spacing step).toInt =
      clamp (margin.toInt + clamp (clamp step * spacing.toInt)) := by
  simp only [coordinate, toInt_saturate]

theorem coordinate_mono {margin spacing : Int32} (h : 0 ≤ spacing) {i j : Nat} (hij : i ≤ j) :
    coordinate margin spacing i ≤ coordinate margin spacing j := by
  rw [Int32.le_iff_toInt_le, Int32.toInt_zero] at h
  rw [Int32.le_iff_toInt_le, toInt_coordinate, toInt_coordinate]
  have hstep : clamp i ≤ clamp j := clamp_mono (by omega)
  have hway := clamp_mono (Int.mul_le_mul_of_nonneg_right hstep h)
  exact clamp_mono (by omega)

/-- All integers on the way to a coordinate are in the 32-bit range. -/
structure CoordinateFits (margin spacing : Int32) (step : Nat) : Prop where
  number : FitsInt32 step
  way : FitsInt32 (step * spacing.toInt)
  sum : FitsInt32 (margin.toInt + step * spacing.toInt)

instance (margin spacing : Int32) (step : Nat) : Decidable (CoordinateFits margin spacing step) :=
  decidable_of_iff (FitsInt32 step ∧ FitsInt32 (step * spacing.toInt) ∧
    FitsInt32 (margin.toInt + step * spacing.toInt))
    ⟨fun ⟨h1, h2, h3⟩ => ⟨h1, h2, h3⟩, fun ⟨h1, h2, h3⟩ => ⟨h1, h2, h3⟩⟩

theorem CoordinateFits.toInt_coordinate {margin spacing : Int32} {step : Nat}
    (h : CoordinateFits margin spacing step) :
    (coordinate margin spacing step).toInt = margin.toInt + step * spacing.toInt := by
  rw [PipelineDoc.toInt_coordinate, h.number.clamp_eq, h.way.clamp_eq, h.sum.clamp_eq]

theorem CoordinateFits.inj {margin spacing : Int32} (hne : spacing ≠ 0) {i j : Nat}
    (hi : CoordinateFits margin spacing i) (hj : CoordinateFits margin spacing j)
    (h : coordinate margin spacing i = coordinate margin spacing j) : i = j := by
  have hint := congrArg Int32.toInt h
  rw [hi.toInt_coordinate, hj.toInt_coordinate] at hint
  have hspacing : spacing.toInt ≠ 0 := fun h0 =>
    hne (Int32.toInt_inj.mp (h0.trans Int32.toInt_zero.symm))
  exact Int.ofNat_inj.mp (Int.eq_of_mul_eq_mul_right hspacing (Int.add_left_cancel hint))

/-! ### The nodes of a graph -/

/-- The number of nodes before place `i` that have a rank. -/
def Graph.orderBefore (g : Graph) (i rank : Nat) : Nat :=
  (g.nodes.take i).countP fun n => n.rank == rank

theorem Graph.orderBefore_lt {g : Graph} {i j : Nat} {n : Node} (hi : g.nodes[i]? = some n)
    (hij : i < j) : g.orderBefore i n.rank < g.orderBefore j n.rank := by
  have hsucc : g.orderBefore (i + 1) n.rank = g.orderBefore i n.rank + 1 := by
    rw [orderBefore, List.take_add_one, hi, List.countP_append, Option.toList_some,
      List.countP_singleton, beq_self_eq_true, if_pos rfl]
    rfl
  have hle : g.orderBefore (i + 1) n.rank ≤ g.orderBefore j n.rank :=
    ((List.take_prefix_take_left hij).sublist).countP_le
  omega

namespace Layout

variable (layout : Layout) (g : Graph)

theorem map_rank_apply : (layout.apply g).nodes.map (·.rank) = layout.ranks g := by
  have hlen : (withOrders [] (layout.ranks g)).length ≤ g.nodes.length := by
    rw [length_withOrders, length_ranks]
  calc (layout.apply g).nodes.map (·.rank)
      = ((g.nodes.zip (withOrders [] (layout.ranks g))).map (·.2)).map (·.1) := by
        rw [apply, ← List.map_uncurry_zip_eq_zipWith, List.map_map, List.map_map]
        rfl
    _ = layout.ranks g := by rw [List.map_snd_zip hlen, map_fst_withOrders]

/-- **Where a node stands**, by its rank and the number of nodes of that rank before it. -/
theorem position_of_apply {i : Nat} {n : Node} (h : (layout.apply g).nodes[i]? = some n) :
    n.position = layout.position n.rank ((layout.apply g).orderBefore i n.rank) := by
  have horder : ∀ rank, (layout.apply g).orderBefore i rank = ((layout.ranks g).take i).count rank := by
    intro rank
    rw [← map_rank_apply, ← List.map_take, List.count, List.countP_map]
    rfl
  rw [apply, List.getElem?_zipWith_eq_some] at h
  obtain ⟨old, ⟨rank, order⟩, -, hget, rfl⟩ := h
  rw [getElem?_withOrders, Option.map_eq_some_iff] at hget
  obtain ⟨r, -, hr⟩ := hget
  rw [Prod.mk.injEq, List.count_nil, Nat.zero_add] at hr
  obtain ⟨rfl, rfl⟩ := hr
  rw [horder]

variable {layout g}

/-- **Nodes stand apart** where nothing is cut off: their ranks differ or else their orders. -/
theorem position_ne_of_lt (hrank : layout.rankSpacing ≠ 0) (horder : layout.orderSpacing ≠ 0)
    (hfits : ∀ i n, (layout.apply g).nodes[i]? = some n →
      CoordinateFits layout.margin layout.rankSpacing n.rank ∧
        CoordinateFits layout.margin layout.orderSpacing
          ((layout.apply g).orderBefore i n.rank))
    {i j : Nat} {n m : Node} (hi : (layout.apply g).nodes[i]? = some n)
    (hj : (layout.apply g).nodes[j]? = some m) (hij : i < j) : n.position ≠ m.position := by
  intro heq
  rw [position_of_apply layout g hi, position_of_apply layout g hj, position, position,
    Point.mk.injEq] at heq
  have hsame := (hfits i n hi).1.inj hrank (hfits j m hj).1 heq.1
  have hcount := (hfits i n hi).2.inj horder (hfits j m hj).2 heq.2
  have hlt := Graph.orderBefore_lt hi hij
  rw [hcount, ← hsame] at hlt
  exact Nat.lt_irrefl _ hlt

/-- **Coordinates never wrap around.** A layout keeps the nodes and sets their ranks. Each
coordinate is the exact sum, cut off at the ends of the 32-bit range after each operation. So with a
spacing that is not negative, a node of no lower rank has no smaller `x`, and of two nodes of one
rank the later one has no smaller `y`. If both spacings are not zero and nothing is cut off for any
node, then all coordinates are the exact sums, and no two nodes stand at the same place. -/
theorem apply_coordinates (layout : Layout) (g : Graph) :
    let nodes := (layout.apply g).nodes
    let order (i : Nat) (n : Node) : Nat := (layout.apply g).orderBefore i n.rank
    (nodes.map (·.id) = g.nodes.map (·.id) ∧ nodes.map (·.rank) = layout.ranks g) ∧
    (∀ i n, nodes[i]? = some n →
      n.position.x.toInt =
        clamp (layout.margin.toInt + clamp (clamp n.rank * layout.rankSpacing.toInt)) ∧
      n.position.y.toInt =
        clamp (layout.margin.toInt + clamp (clamp (order i n) * layout.orderSpacing.toInt))) ∧
    (0 ≤ layout.rankSpacing → ∀ n ∈ nodes, ∀ m ∈ nodes, n.rank ≤ m.rank →
      n.position.x ≤ m.position.x) ∧
    (0 ≤ layout.orderSpacing → ∀ (i j : Nat) (n m : Node), i < j → nodes[i]? = some n →
      nodes[j]? = some m → n.rank = m.rank → n.position.y ≤ m.position.y) ∧
    (layout.rankSpacing ≠ 0 → layout.orderSpacing ≠ 0 →
      (∀ i n, nodes[i]? = some n → CoordinateFits layout.margin layout.rankSpacing n.rank ∧
        CoordinateFits layout.margin layout.orderSpacing (order i n)) →
      (∀ i n, nodes[i]? = some n →
        n.position.x.toInt = layout.margin.toInt + n.rank * layout.rankSpacing.toInt ∧
        n.position.y.toInt = layout.margin.toInt + order i n * layout.orderSpacing.toInt) ∧
      ∀ (i j : Nat) (n m : Node), i ≠ j → nodes[i]? = some n → nodes[j]? = some m →
        n.position ≠ m.position) := by
  intro nodes order
  have hplace : ∀ i n, nodes[i]? = some n → n.position = layout.position n.rank (order i n) :=
    fun i n hn => position_of_apply layout g hn
  refine ⟨⟨map_id_applyRanks layout g (length_ranks layout g), map_rank_apply layout g⟩,
    fun i n hn => ?_, fun hspacing n hn m hm hle => ?_,
    fun hspacing i j n m hij hn hm hrank => ?_, fun hrank horder hfits => ⟨fun i n hn => ?_, ?_⟩⟩
  · rw [hplace i n hn]
    exact ⟨toInt_coordinate _ _ _, toInt_coordinate _ _ _⟩
  · obtain ⟨i, hi⟩ := List.getElem?_of_mem hn
    obtain ⟨j, hj⟩ := List.getElem?_of_mem hm
    rw [hplace i n hi, hplace j m hj]
    exact coordinate_mono hspacing hle
  · rw [hplace i n hn, hplace j m hm]
    refine coordinate_mono hspacing (Nat.le_of_lt ?_)
    have hlt := Graph.orderBefore_lt hn hij
    rwa [← show (layout.apply g).orderBefore j n.rank = order j m by rw [hrank]]
  · rw [hplace i n hn]
    exact ⟨(hfits i n hn).1.toInt_coordinate, (hfits i n hn).2.toInt_coordinate⟩
  · intro i j n m hij hn hm
    rcases Nat.lt_or_gt_of_ne hij with hlt | hgt
    · exact position_ne_of_lt hrank horder hfits hn hm hlt
    · exact (position_ne_of_lt hrank horder hfits hm hn hgt).symm

/-- Three nodes, two of them in one column. With the usual spacings nothing is cut off, and they
stand apart. With the widest one the second column is cut off at the end of the range, and still it
is not left of the first. -/
theorem apply_coordinates_columns :
    let g := (((Graph.empty.addNode .module ['a'] ['a']).addNode .module ['b'] ['b']).addNode
      .module ['c'] ['c']).addEdge .dataFlow ['a'] ['b']
    let wide : Layout := { rankSpacing := Int32.maxValue }
    ((Layout.apply {} g).nodes.map (·.rank) = [0, 1, 0] ∧
      ∀ (i j : Nat) (n m : Node), i ≠ j → (Layout.apply {} g).nodes[i]? = some n →
        (Layout.apply {} g).nodes[j]? = some m → n.position ≠ m.position) ∧
    ¬ CoordinateFits wide.margin wide.rankSpacing 1 ∧
      ∀ n ∈ (wide.apply g).nodes, ∀ m ∈ (wide.apply g).nodes, n.rank ≤ m.rank →
        n.position.x ≤ m.position.x := by
  intro g wide
  have hfits : ∀ r ∈ (Layout.apply {} g).nodes.zipIdx,
      CoordinateFits 40 280 r.1.rank ∧
        CoordinateFits 40 140 ((Layout.apply {} g).orderBefore r.2 r.1.rank) := by decide +kernel
  refine ⟨⟨by decide +kernel, ?_⟩, by decide +kernel, ?_⟩
  · exact ((apply_coordinates {} g).2.2.2.2 (by decide) (by decide) fun i n hn =>
      hfits (n, i) (List.mem_zipIdx_iff_getElem?.mpr hn)).2
  · exact (apply_coordinates wide g).2.2.1 (by decide)

end Layout

end PipelineDoc
