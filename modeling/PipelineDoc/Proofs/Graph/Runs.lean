import PipelineDoc.Proofs.Graph.Growth
import PipelineDoc.Proofs.Layout.Engines

/-!
# Runs of operations on a graph

Four *operations* change a graph: a node or an edge is added, a module is made active, or the graph
is laid out. A graph that operations have made from the empty one is *sound* (`Sound`), and whatever
is done to it afterwards keeps its nodes and edges in their order (`Keeps`). Both are shown for one
operation first, and then along a run. Making a module active changes flags only, and a layout
changes ranks and positions only and does not look at those that are there. Main statement:
`operations_sound`.
-/

namespace PipelineDoc

/-- What a node is from its addition on: its id, its kind and its label. -/
def Node.core (n : Node) : Text × NodeKind × Text := (n.id, n.kind, n.label)

/-- Where a layout has put a node. -/
def Node.placement (n : Node) : Nat × Point := (n.rank, n.position)

/-- The node without its flag. -/
def Node.inactive (n : Node) : Node := { n with active := false }

/-- The node without its rank and position. -/
def Node.unplaced (n : Node) : Node := { n with rank := 0, position := .origin }

namespace Graph

/-- An operation on a graph. -/
inductive Operation where
  | addNode (kind : NodeKind) (id label : Text)
  | addEdge (kind : EdgeKind) (source target : Text)
  | setActive (id : Text)
  | layOut (layout : Layout)
  deriving DecidableEq, Repr

/-- The graph after an operation. -/
def perform (g : Graph) : Operation → Graph
  | .addNode kind id label => g.addNode kind id label
  | .addEdge kind source target => g.addEdge kind source target
  | .setActive id => g.setActive id
  | .layOut layout => layout.apply g

/-- The graph after operations, one after the other. -/
def run (g : Graph) (ops : List Operation) : Graph := ops.foldl perform g

theorem run_append (g : Graph) (ops more : List Operation) :
    g.run (ops ++ more) = (g.run ops).run more := List.foldl_append

/-! ### What operations leave as it is -/

theorem nodes_setActive (g : Graph) (id : Text) :
    (g.setActive id).nodes.map Node.inactive = g.nodes.map Node.inactive := by
  simp [setActive, Node.inactive]

theorem map_core_of_map_inactive {ns ms : List Node}
    (h : ns.map Node.inactive = ms.map Node.inactive) : ns.map Node.core = ms.map Node.core := by
  have hcore := congrArg (List.map Node.core) h
  rwa [List.map_map, List.map_map] at hcore

theorem map_core_of_map_unplaced {ns ms : List Node}
    (h : ns.map Node.unplaced = ms.map Node.unplaced) : ns.map Node.core = ms.map Node.core := by
  have hcore := congrArg (List.map Node.core) h
  rwa [List.map_map, List.map_map] at hcore

theorem length_placements (layout : Layout) (g : Graph) :
    (withOrders [] (layout.ranks g)).length = g.nodes.length := by
  rw [Layout.length_withOrders, Layout.length_ranks]

theorem nodes_layOut (layout : Layout) (g : Graph) :
    (layout.apply g).nodes.map Node.unplaced = g.nodes.map Node.unplaced := by
  have hlen := length_placements layout g
  refine List.ext_getElem (by simp [Layout.apply, hlen]) fun i h1 h2 => ?_
  simp [Layout.apply, Node.unplaced]

/-- **What is kept**: nodes and edges stay in their order, and a node stays what it is. -/
structure Keeps (g g' : Graph) : Prop where
  nodes : g.nodes.map Node.core <+: g'.nodes.map Node.core
  edges : g.edges <+: g'.edges

theorem Keeps.refl (g : Graph) : Keeps g g := ⟨List.prefix_rfl, List.prefix_rfl⟩

theorem Keeps.trans {a b c : Graph} (h : Keeps a b) (h' : Keeps b c) : Keeps a c :=
  ⟨h.nodes.trans h'.nodes, h.edges.trans h'.edges⟩

theorem keeps_perform (g : Graph) (op : Operation) : g.Keeps (g.perform op) := by
  cases op with
  | addNode kind id label =>
    refine ⟨?_, ?_⟩
    · show _ <+: (g.addNode kind id label).nodes.map Node.core
      by_cases hid : g.HasNode id
      · rw [addNode_of_hasNode hid]
      · rw [nodes_addNode hid, List.map_append]
        exact List.prefix_append _ _
    · show _ <+: (g.addNode kind id label).edges
      rw [edges_addNode]
  | addEdge kind source target =>
    refine ⟨?_, ?_⟩
    · show _ <+: (g.addEdge kind source target).nodes.map Node.core
      rw [nodes_addEdge]
    · show _ <+: (g.addEdge kind source target).edges
      unfold addEdge
      split
      · exact List.prefix_append _ _
      · exact List.prefix_rfl
  | setActive id =>
    have hnodes := map_core_of_map_inactive (nodes_setActive g id)
    exact ⟨hnodes ▸ List.prefix_rfl, List.prefix_rfl⟩
  | layOut layout =>
    have hnodes := map_core_of_map_unplaced (nodes_layOut layout g)
    exact ⟨hnodes ▸ List.prefix_rfl, List.prefix_rfl⟩

/-- **A run keeps nodes and edges.** -/
theorem keeps_run (g : Graph) (ops : List Operation) : g.Keeps (g.run ops) := by
  induction ops generalizing g with
  | nil => exact .refl g
  | cons op ops ih => exact (keeps_perform g op).trans (ih (g.perform op))

/-! ### Additions that are refused -/

theorem addNode_eq_self_iff {g : Graph} {kind : NodeKind} {id label : Text} :
    g.addNode kind id label = g ↔ g.admitsNode id = false := by
  unfold addNode
  split
  · next hadmits =>
    refine iff_of_false (fun h => ?_) (by simp [hadmits])
    have hlen := congrArg (fun g => g.nodes.length) h
    simp at hlen
  · next hadmits => exact iff_of_true rfl (by simpa using hadmits)

theorem addEdge_eq_self_iff {g : Graph} {kind : EdgeKind} {source target : Text} :
    g.addEdge kind source target = g ↔ g.admitsEdge source target = false := by
  unfold addEdge
  split
  · next hadmits =>
    refine iff_of_false (fun h => ?_) (by simp [hadmits])
    have hlen := congrArg (fun g => g.edges.length) h
    simp at hlen
  · next hadmits => exact iff_of_true rfl (by simpa using hadmits)

/-! ### Soundness -/

/-- **A sound graph**: no id and no pair of ends is used twice, edges join two nodes and are called
after them, and at most one node is active, a module. -/
structure Sound (g : Graph) : Prop where
  nodup_ids : (g.nodes.map (·.id)).Nodup
  nodup_ends : (g.edges.map fun e => (e.source, e.target)).Nodup
  ends : ∀ e ∈ g.edges, e.source ≠ e.target ∧ g.HasNode e.source ∧ g.HasNode e.target ∧
    e.id = e.source ++ '-' :: e.target
  active : g.activeNodes.length ≤ 1 ∧ ∀ n ∈ g.activeNodes, n.kind = .module

theorem sound_empty : Sound .empty :=
  ⟨List.nodup_nil, List.nodup_nil, by simp [empty], by simp [empty, activeNodes]⟩

theorem hasNode_iff_mem_core {g : Graph} {id : Text} :
    g.HasNode id ↔ id ∈ (g.nodes.map Node.core).map (·.1) := by
  simp [HasNode, Node.core]

theorem Keeps.hasNode {g g' : Graph} (h : g.Keeps g') {id : Text} (hid : g.HasNode id) :
    g'.HasNode id := by
  rw [hasNode_iff_mem_core] at hid ⊢
  exact (h.nodes.map _).subset hid

/-- An operation on the nodes alone keeps a graph sound if it keeps ids apart and does not make more
than one module active. -/
theorem Sound.of_keeps {g g' : Graph} (h : g.Sound) (hk : g.Keeps g') (hedges : g'.edges = g.edges)
    (hids : (g'.nodes.map (·.id)).Nodup)
    (hactive : g'.activeNodes.length ≤ 1 ∧ ∀ n ∈ g'.activeNodes, n.kind = .module) : g'.Sound := by
  refine ⟨hids, hedges ▸ h.nodup_ends, fun e he => ?_, hactive⟩
  obtain ⟨hne, hs, ht, hid⟩ := h.ends e (hedges ▸ he)
  exact ⟨hne, hk.hasNode hs, hk.hasNode ht, hid⟩

theorem nodup_ids_of_map_core {g g' : Graph} (h : (g.nodes.map (·.id)).Nodup)
    (hcore : g'.nodes.map Node.core = g.nodes.map Node.core) : (g'.nodes.map (·.id)).Nodup := by
  have hids := congrArg (List.map (·.1)) hcore
  rw [List.map_map, List.map_map] at hids
  have hids : g'.nodes.map (·.id) = g.nodes.map (·.id) := hids
  rwa [hids]

theorem Sound.addNode {g : Graph} (h : g.Sound) (kind : NodeKind) (id label : Text) :
    (g.addNode kind id label).Sound := by
  have hactive : (g.addNode kind id label).activeNodes = g.activeNodes := by
    by_cases hid : g.HasNode id
    · rw [addNode_of_hasNode hid]
    · rw [activeNodes, nodes_addNode hid, List.filter_append]
      simp [activeNodes]
  refine h.of_keeps (keeps_perform g (.addNode kind id label)) (edges_addNode g kind id label)
    (nodup_ids_addNode h.nodup_ids kind id label) ?_
  rw [hactive]
  exact h.active

theorem Sound.addEdge {g : Graph} (h : g.Sound) (kind : EdgeKind) (source target : Text) :
    (g.addEdge kind source target).Sound := by
  have hnodes := nodes_addEdge g kind source target
  refine ⟨by rw [hnodes]; exact h.nodup_ids, nodup_ends_addEdge h.nodup_ends, fun e he => ?_,
    by rw [activeNodes, hnodes]; exact h.active⟩
  rw [hasNode_addEdge, hasNode_addEdge]
  rcases mem_of_mem_edges_addEdge he with he | ⟨hadmits, rfl⟩
  · exact h.ends e he
  · obtain ⟨hne, hs, ht, -⟩ := admitsEdge_iff.mp hadmits
    exact ⟨hne, hs, ht, rfl⟩

theorem length_le_one_of_id {ns : List Node} (h : (ns.map (·.id)).Nodup) {id : Text}
    (hid : ∀ n ∈ ns, n.id = id) : ns.length ≤ 1 := by
  have hall : ns.map (·.id) = List.replicate ns.length id := by
    rw [List.eq_replicate_iff]
    exact ⟨by simp, by simpa using hid⟩
  rw [hall] at h
  exact List.nodup_replicate.mp h

theorem Sound.setActive {g : Graph} (h : g.Sound) (id : Text) : (g.setActive id).Sound := by
  have hids := nodup_ids_of_map_core h.nodup_ids (map_core_of_map_inactive (nodes_setActive g id))
  have hflag : ∀ n ∈ (g.setActive id).activeNodes, n.id = id ∧ n.kind = .module := by
    intro n hn
    obtain ⟨hn, hactive⟩ := List.mem_filter.mp hn
    obtain ⟨m, -, rfl⟩ := List.mem_map.mp hn
    simpa using hactive
  have hsub : ((g.setActive id).activeNodes.map (·.id)).Nodup :=
    hids.sublist (List.filter_sublist.map _)
  exact h.of_keeps (keeps_perform g (.setActive id)) rfl hids
    ⟨length_le_one_of_id hsub fun n hn => (hflag n hn).1, fun n hn => (hflag n hn).2⟩

theorem activeNodes_layOut (layout : Layout) (g : Graph) :
    (layout.apply g).activeNodes.map Node.unplaced = g.activeNodes.map Node.unplaced := by
  have hfilter : ∀ ns : List Node, (ns.filter fun n => n.active).map Node.unplaced =
      (ns.map Node.unplaced).filter fun n => n.active := fun ns => by
    rw [List.filter_map]
    rfl
  rw [activeNodes, hfilter, nodes_layOut, ← hfilter]
  rfl

theorem Sound.layOut {g : Graph} (h : g.Sound) (layout : Layout) : (layout.apply g).Sound := by
  have hids := nodup_ids_of_map_core h.nodup_ids (map_core_of_map_unplaced (nodes_layOut layout g))
  have hactive := activeNodes_layOut layout g
  have hlen : (layout.apply g).activeNodes.length = g.activeNodes.length := by
    simpa using congrArg List.length hactive
  refine h.of_keeps (keeps_perform g (.layOut layout)) rfl hids ⟨hlen ▸ h.active.1, fun n hn => ?_⟩
  obtain ⟨m, hm, heq⟩ := List.mem_map.mp (hactive ▸ List.mem_map_of_mem hn)
  have hkind : m.unplaced.kind = n.unplaced.kind := congrArg Node.kind heq
  exact hkind.symm.trans (h.active.2 m hm)

theorem Sound.perform {g : Graph} (h : g.Sound) (op : Operation) : (g.perform op).Sound := by
  cases op with
  | addNode kind id label => exact h.addNode kind id label
  | addEdge kind source target => exact h.addEdge kind source target
  | setActive id => exact h.setActive id
  | layOut layout => exact h.layOut layout

/-- **A run keeps a graph sound.** -/
theorem Sound.run {g : Graph} (h : g.Sound) (ops : List Operation) : (g.run ops).Sound := by
  induction ops generalizing g with
  | nil => exact h
  | cons op ops ih => exact ih (h.perform op)

/-! ### What a layout looks at -/

theorem indexOf?_congr {g g' : Graph} (h : g.nodes.map (·.id) = g'.nodes.map (·.id)) (id : Text) :
    g.indexOf? id = g'.indexOf? id := by
  have hindex : ∀ g : Graph, g.indexOf? id = (g.nodes.map (·.id)).findIdx? (· == id) := fun g => by
    rw [List.findIdx?_map]
    rfl
  rw [hindex, hindex, h]

theorem ranks_congr {g g' : Graph} (layout : Layout)
    (hids : g.nodes.map (·.id) = g'.nodes.map (·.id)) (hedges : g.edges = g'.edges) :
    layout.ranks g = layout.ranks g' := by
  have hlen : g.nodes.length = g'.nodes.length := by simpa using congrArg List.length hids
  have hindices : g.edgeIndices = g'.edgeIndices := by
    rw [edgeIndices, edgeIndices, hedges]
    simp only [indexOf?_congr hids]
  simp only [Layout.ranks, hlen, hindices]

/-- The placements of a layout, by the ranks alone. -/
theorem placements_layOut (layout : Layout) (g : Graph) :
    (layout.apply g).nodes.map Node.placement =
      (withOrders [] (layout.ranks g)).map fun (rank, order) => (rank, layout.position rank order) := by
  have hlen := length_placements layout g
  refine List.ext_getElem (by simp [Layout.apply, hlen]) fun i h1 h2 => ?_
  simp [Layout.apply, Node.placement]

/-- **A graph after any operations.** It is sound; whatever is done next keeps its nodes and edges
in their order, with the ids, kinds and labels of the nodes; an addition changes the graph exactly
if it is not refused; making a module active changes flags only; a layout changes ranks and
positions only, and puts the nodes where it puts those of any graph with the same ids in the same
order and the same edges. -/
theorem operations_sound (ops : List Operation) :
    let g := Graph.empty.run ops
    g.Sound ∧ (∀ more, g.Keeps (Graph.empty.run (ops ++ more))) ∧
      (∀ kind id label, g.addNode kind id label = g ↔ g.admitsNode id = false) ∧
      (∀ kind source target, g.addEdge kind source target = g ↔
        g.admitsEdge source target = false) ∧
      (∀ id, (g.setActive id).edges = g.edges ∧
        (g.setActive id).nodes.map Node.inactive = g.nodes.map Node.inactive) ∧
      (∀ layout : Layout, (layout.apply g).edges = g.edges ∧
        (layout.apply g).nodes.map Node.unplaced = g.nodes.map Node.unplaced) ∧
      ∀ (layout : Layout) (g' : Graph), g'.nodes.map (·.id) = g.nodes.map (·.id) →
        g'.edges = g.edges →
        (layout.apply g').nodes.map Node.placement = (layout.apply g).nodes.map Node.placement := by
  intro g
  refine ⟨sound_empty.run ops, fun more => ?_, fun _ _ _ => addNode_eq_self_iff,
    fun _ _ _ => addEdge_eq_self_iff, fun id => ⟨rfl, nodes_setActive g id⟩,
    fun layout => ⟨rfl, nodes_layOut layout g⟩, fun layout g' hids hedges => ?_⟩
  · rw [run_append]
    exact keeps_run g more
  · rw [placements_layOut, placements_layOut, ranks_congr layout hids hedges]

/-- A field that flows into a module, before and after the graph was laid out with its edge missing
and the module made active. -/
theorem operations_sound_flagged :
    let nodes : List Operation := [.addNode .input ['z'] ['z'], .addNode .module ['m'] ['m']]
    let edge : Operation := .addEdge .dataFlow ['z'] ['m']
    let g := Graph.empty.run (nodes ++ [.layOut {}, .setActive ['m'], edge])
    let g' := Graph.empty.run (nodes ++ [edge])
    (g'.nodes ≠ g.nodes ∧ g'.nodes.map (·.id) = g.nodes.map (·.id) ∧ g'.edges = g.edges) ∧
      (Layout.apply {} g').nodes.map Node.placement =
        (Layout.apply {} g).nodes.map Node.placement := by
  intro nodes edge g g'
  have hids : g'.nodes.map (·.id) = g.nodes.map (·.id) := by decide +kernel
  have hedges : g'.edges = g.edges := by decide +kernel
  obtain ⟨-, -, -, -, -, -, hlayout⟩ :=
    operations_sound (nodes ++ [.layOut {}, .setActive ['m'], edge])
  exact ⟨⟨by decide +kernel, hids, hedges⟩, hlayout {} g' hids hedges⟩

end Graph

end PipelineDoc
