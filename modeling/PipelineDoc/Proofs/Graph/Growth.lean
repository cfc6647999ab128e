import Mathlib.Data.List.Nodup
import PipelineDoc.Graph.Basic

/-!
# How a graph grows

What `addNode` and `addEdge` add, and that they keep a graph *tidy*: no two nodes share an id, no
two edges join the same nodes in the same direction, the id of an edge is made from those of its
ends, and the kind of an edge can be told by its target, since only the id of a part has a colon in
it. `Grows` says what one or more additions have added to a graph; additions one after the other add
up (`Grows.trans`, `Grows.foldl`).
-/

namespace PipelineDoc.Graph

/-- There is a node with an id. -/
def HasNode (g : Graph) (id : Text) : Prop := ∃ n ∈ g.nodes, n.id = id

theorem contains_iff {g : Graph} {id : Text} : g.contains id = true ↔ g.HasNode id := by
  simp [contains, HasNode]

theorem joins_iff {g : Graph} {source target : Text} :
    g.joins source target = true ↔ ∃ e ∈ g.edges, e.source = source ∧ e.target = target := by
  simp [joins]

/-- No id and no pair of ends is used twice, edges have the ids that their ends give, and structural
edges are those to ids with a colon. -/
structure Tidy (g : Graph) : Prop where
  nodup_ids : (g.nodes.map (·.id)).Nodup
  nodup_ends : (g.edges.map fun e => (e.source, e.target)).Nodup
  eq_between : ∀ e ∈ g.edges, e = .between e.source e.target e.kind
  structural_iff : ∀ e ∈ g.edges, (e.kind = .structural ↔ ':' ∈ e.target)

theorem tidy_empty : Tidy .empty :=
  ⟨List.nodup_nil, List.nodup_nil, by simp [empty], by simp [empty]⟩

/-! ### Nodes -/

theorem edges_addNode (g : Graph) (kind : NodeKind) (id label : Text) :
    (g.addNode kind id label).edges = g.edges := by
  unfold addNode
  split <;> rfl

theorem addNode_of_hasNode {g : Graph} {id : Text} (h : g.HasNode id) (kind : NodeKind)
    (label : Text) : g.addNode kind id label = g :=
  if_neg (by rw [admitsNode, contains_iff.mpr h]; exact Bool.false_ne_true)

theorem nodes_addNode {g : Graph} {id : Text} (h : ¬ g.HasNode id) (kind : NodeKind) (label : Text) :
    (g.addNode kind id label).nodes = g.nodes ++ [⟨id, kind, label, 0, .origin, false⟩] := by
  have hadmits : g.admitsNode id = true := by
    rw [admitsNode, Bool.not_eq_true', ← Bool.not_eq_true, contains_iff]
    exact h
  rw [addNode, if_pos hadmits]

theorem hasNode_addNode {g : Graph} {kind : NodeKind} {id label x : Text} :
    (g.addNode kind id label).HasNode x ↔ g.HasNode x ∨ x = id := by
  by_cases h : g.HasNode id
  · rw [addNode_of_hasNode h]
    exact ⟨Or.inl, fun hx => hx.elim (fun hx => hx) fun hx => hx ▸ h⟩
  · rw [HasNode, nodes_addNode h, HasNode]
    simp only [List.mem_append, List.mem_singleton]
    constructor
    · rintro ⟨n, hn | rfl, rfl⟩
      · exact Or.inl ⟨n, hn, rfl⟩
      · exact Or.inr rfl
    · rintro (⟨n, hn, rfl⟩ | rfl)
      · exact ⟨n, Or.inl hn, rfl⟩
      · exact ⟨_, Or.inr rfl, rfl⟩

theorem nodup_ids_addNode {g : Graph} (h : (g.nodes.map (·.id)).Nodup) (kind : NodeKind)
    (id label : Text) : ((g.addNode kind id label).nodes.map (·.id)).Nodup := by
  by_cases hid : g.HasNode id
  · rw [addNode_of_hasNode hid]
    exact h
  · rw [nodes_addNode hid, List.map_append, List.nodup_append]
    refine ⟨h, List.nodup_singleton _, fun a ha b hb => ?_⟩
    obtain ⟨n, hn, rfl⟩ := List.mem_map.mp ha
    rw [List.map_singleton, List.mem_singleton] at hb
    rintro rfl
    exact hid ⟨n, hn, hb⟩

theorem Tidy.addNode {g : Graph} (h : g.Tidy) (kind : NodeKind) (id label : Text) :
    (g.addNode kind id label).Tidy := by
  refine ⟨nodup_ids_addNode h.nodup_ids kind id label, ?_, ?_, ?_⟩
  · rw [edges_addNode]
    exact h.nodup_ends
  · rw [edges_addNode]
    exact h.eq_between
  · rw [edges_addNode]
    exact h.structural_iff

/-! ### Modules -/

theorem node?_isSome_iff {g : Graph} {id : Text} : (g.node? id).isSome ↔ g.HasNode id := by
  simp [node?, HasNode]

theorem isModule_addNode {g : Graph} {kind : NodeKind} {id label x : Text} :
    (g.addNode kind id label).isModule x = true ↔
      g.isModule x = true ∨ kind = .module ∧ x = id ∧ ¬ g.HasNode id := by
  by_cases h : g.HasNode id
  · rw [addNode_of_hasNode h]
    simp [h]
  · have hfind : (g.addNode kind id label).node? x =
        (g.node? x).or (if id = x then some ⟨id, kind, label, 0, .origin, false⟩ else none) := by
      rw [node?, nodes_addNode h, List.find?_append, node?]
      congr 1
      by_cases hx : id = x <;> simp [hx]
    rw [isModule, hfind]
    cases hn : g.node? x with
    | some n =>
      have hx : x ≠ id := by
        rintro rfl
        exact h (node?_isSome_iff.mp (by rw [hn]; rfl))
      simp [isModule, hn, hx]
    | none =>
      by_cases hx : id = x
      · subst hx
        simp [isModule, hn, h]
      · simp [isModule, hn, hx, Ne.symm hx]

/-! ### Edges -/

theorem nodes_addEdge (g : Graph) (kind : EdgeKind) (source target : Text) :
    (g.addEdge kind source target).nodes = g.nodes := by
  unfold addEdge
  split <;> rfl

theorem hasNode_addEdge {g : Graph} {kind : EdgeKind} {source target x : Text} :
    (g.addEdge kind source target).HasNode x ↔ g.HasNode x := by
  rw [HasNode, nodes_addEdge, HasNode]

theorem isModule_addEdge (g : Graph) (kind : EdgeKind) (source target x : Text) :
    (g.addEdge kind source target).isModule x = g.isModule x := by
  rw [isModule, node?, nodes_addEdge]
  rfl

theorem addEdge_self (g : Graph) (kind : EdgeKind) (id : Text) : g.addEdge kind id id = g :=
  if_neg (by simp [admitsEdge])

section

variable {g : Graph} {kind : EdgeKind} {source target : Text}

/-- In a tidy graph two edges with the same ends are of one kind, so an edge that is refused as a
repeat is there already. -/
theorem mem_edges_addEdge (h : g.Tidy) (hs : g.HasNode source) (ht : g.HasNode target)
    (hne : source ≠ target) (hkind : kind = .structural ↔ ':' ∈ target) {e : Edge} :
    e ∈ (g.addEdge kind source target).edges ↔ e ∈ g.edges ∨ e = .between source target kind := by
  by_cases hjoin : ∃ e ∈ g.edges, e.source = source ∧ e.target = target
  · have hadmits : ¬ g.admitsEdge source target = true := by
      rw [admitsEdge, joins_iff.mpr hjoin]
      simp
    obtain ⟨e', he', rfl, rfl⟩ := hjoin
    have hsame : e'.kind = kind := by
      have h1 := h.structural_iff e' he'
      cases hk : e'.kind <;> cases kind <;> simp_all
    subst hsame
    rw [addEdge, if_neg hadmits, ← h.eq_between e' he']
    exact ⟨Or.inl, fun he => he.elim (fun he => he) fun he => he ▸ he'⟩
  · have hadmits : g.admitsEdge source target = true := by
      have hjoins : g.joins source target = false := by
        rw [← Bool.not_eq_true, joins_iff]
        exact hjoin
      simp [admitsEdge, hne, contains_iff.mpr hs, contains_iff.mpr ht, hjoins]
    rw [addEdge, if_pos hadmits]
    simp

/-- An edge is added if its ends are two nodes that no edge joins yet. -/
theorem admitsEdge_iff : g.admitsEdge source target = true ↔ source ≠ target ∧ g.HasNode source ∧
    g.HasNode target ∧ ∀ e ∈ g.edges, ¬ (e.source = source ∧ e.target = target) := by
  have hjoins : g.joins source target = false ↔
      ∀ e ∈ g.edges, ¬ (e.source = source ∧ e.target = target) := by
    rw [← Bool.not_eq_true, joins_iff]
    simp
  rw [admitsEdge, Bool.and_eq_true, Bool.and_eq_true, Bool.and_eq_true, bne_iff_ne, contains_iff,
    contains_iff, Bool.not_eq_true', hjoins, and_assoc, and_assoc]

/-- Every edge was there, or is the one that was added. -/
theorem mem_of_mem_edges_addEdge {e : Edge} (he : e ∈ (g.addEdge kind source target).edges) :
    e ∈ g.edges ∨ g.admitsEdge source target = true ∧ e = .between source target kind := by
  unfold addEdge at he
  split at he
  · next hadmits => exact (List.mem_append.mp he).imp_right fun he => ⟨hadmits, by simpa using he⟩
  · exact Or.inl he

theorem nodup_ends_addEdge (h : (g.edges.map fun e => (e.source, e.target)).Nodup) :
    ((g.addEdge kind source target).edges.map fun e => (e.source, e.target)).Nodup := by
  unfold addEdge
  split
  · next hadmits =>
    rw [List.map_append, List.nodup_append]
    refine ⟨h, List.nodup_singleton _, fun a ha b hb => ?_⟩
    obtain ⟨e, he, rfl⟩ := List.mem_map.mp ha
    rw [List.map_singleton, List.mem_singleton] at hb
    rintro rfl
    exact (admitsEdge_iff.mp hadmits).2.2.2 e he (Prod.mk.inj hb)
  · exact h

theorem Tidy.addEdge (h : g.Tidy) (hkind : kind = .structural ↔ ':' ∈ target) :
    (g.addEdge kind source target).Tidy := by
  refine ⟨by rw [nodes_addEdge]; exact h.nodup_ids, nodup_ends_addEdge h.nodup_ends, ?_, ?_⟩
  · intro e he
    rcases mem_of_mem_edges_addEdge he with he | ⟨-, rfl⟩
    · exact h.eq_between e he
    · rfl
  · intro e he
    rcases mem_of_mem_edges_addEdge he with he | ⟨-, rfl⟩
    · exact h.structural_iff e he
    · exact hkind

end

/-! ### Additions -/

/-- `g'` is tidy, keeps the nodes of `g` and has the same modules. -/
structure Above (g g' : Graph) : Prop where
  tidy : g'.Tidy
  isModule : ∀ id, g'.isModule id = g.isModule id
  hasNode : ∀ {id}, g.HasNode id → g'.HasNode id

theorem Above.refl {g : Graph} (h : g.Tidy) : Above g g := ⟨h, fun _ => rfl, fun h => h⟩

theorem Above.trans {a b c : Graph} (h : Above a b) (h' : Above b c) : Above a c :=
  ⟨h'.tidy, fun id => (h'.isModule id).trans (h.isModule id), fun hid => h'.hasNode (h.hasNode hid)⟩

/-- `g'` has the nodes and edges of `g`, and besides them the nodes `N` and the edges `E`. -/
structure Grows (g g' : Graph) (N : Text → Prop) (E : Edge → Prop) : Prop where
  above : Above g g'
  node_iff : ∀ id, g'.HasNode id ↔ g.HasNode id ∨ N id
  edge_iff : ∀ e, e ∈ g'.edges ↔ e ∈ g.edges ∨ E e

namespace Grows

theorem refl {g : Graph} (h : g.Tidy) : Grows g g (fun _ => False) fun _ => False :=
  ⟨.refl h, by simp, by simp⟩

theorem trans {a b c : Graph} {N N' : Text → Prop} {E E' : Edge → Prop} (h : Grows a b N E)
    (h' : Grows b c N' E') : Grows a c (fun id => N id ∨ N' id) fun e => E e ∨ E' e := by
  refine ⟨h.above.trans h'.above, fun id => ?_, fun e => ?_⟩
  · rw [h'.node_iff, h.node_iff, or_assoc]
  · rw [h'.edge_iff, h.edge_iff, or_assoc]

theorem congr {g g' : Graph} {N N' : Text → Prop} {E E' : Edge → Prop} (h : Grows g g' N E)
    (hN : ∀ id, N id ↔ N' id) (hE : ∀ e, E e ↔ E' e) : Grows g g' N' E' :=
  ⟨h.above, fun id => by rw [h.node_iff, hN], fun e => by rw [h.edge_iff, hE]⟩

theorem addNode {g : Graph} (h : g.Tidy) {kind : NodeKind} (hk : kind ≠ .module) (id label : Text) :
    Grows g (g.addNode kind id label) (· = id) fun _ => False := by
  refine ⟨⟨h.addNode kind id label, fun x => ?_, fun hx => hasNode_addNode.mpr (Or.inl hx)⟩,
    fun x => hasNode_addNode, fun e => by rw [edges_addNode]; simp⟩
  rw [Bool.eq_iff_iff, isModule_addNode]
  simp [hk]

theorem addEdge {g : Graph} (h : g.Tidy) {kind : EdgeKind} {source target : Text}
    (hs : g.HasNode source) (ht : g.HasNode target) (hkind : kind = .structural ↔ ':' ∈ target) :
    Grows g (g.addEdge kind source target) (fun _ => False)
      fun e => source ≠ target ∧ e = .between source target kind := by
  refine ⟨⟨h.addEdge hkind, isModule_addEdge g kind source target, hasNode_addEdge.mpr⟩,
    fun x => by rw [hasNode_addEdge]; simp, fun e => ?_⟩
  by_cases hne : source = target
  · subst hne
    rw [addEdge_self]
    simp
  · rw [mem_edges_addEdge h hs ht hne hkind]
    simp [hne]

/-- **Additions along a list** add up. -/
theorem foldl {α : Type} {f : Graph → α → Graph} {N : α → Text → Prop} {E : α → Edge → Prop}
    {xs : List α} {g : Graph} (hg : g.Tidy)
    (h : ∀ a ∈ xs, ∀ g', Above g g' → Grows g' (f g' a) (N a) (E a)) :
    Grows g (xs.foldl f g) (fun id => ∃ a ∈ xs, N a id) fun e => ∃ a ∈ xs, E a e := by
  induction xs generalizing g with
  | nil => exact (refl hg).congr (by simp) (by simp)
  | cons a xs ih =>
    have hfirst := h a List.mem_cons_self g (.refl hg)
    have hrest := ih hfirst.above.tidy fun b hb g' hg' =>
      h b (List.mem_cons_of_mem _ hb) g' (hfirst.above.trans hg')
    exact (hfirst.trans hrest).congr (by simp) (by simp)

end Grows

end PipelineDoc.Graph
