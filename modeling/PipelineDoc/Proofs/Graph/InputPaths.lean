import PipelineDoc.Proofs.Graph.Modules

/-!
# Paths below the input

A path `input.q` may stand in the arguments of a call and at the end of an arrow. In arguments it
stands for the node of the first segment of `q`, and at the end of an arrow for the node of `q` as a
whole. So a document that uses the path in both ways has one node for it exactly if `q` is a single
segment (`inputPath_nodes`), and `input.a.b` gets two (`inputPath_two_nodes`).
-/

namespace PipelineDoc

/-- The paths that a statement of a body has in its arguments. -/
def Statement.argumentPaths (body : Text) : Statement → List Text
  | .call c => (Graph.callReferences body c).map (·.path)
  | .arrow _ => []

/-- The paths that a statement joins by arrows. -/
def Statement.arrowPaths : Statement → List Text
  | .call _ => []
  | .arrow chain => chain.endpoints.map (·.1)

/-- A pipeline of a document has a path in the arguments of a call. -/
def Text.HasArgument (source path : Text) : Prop :=
  ∃ d ∈ source.declarations, d.kind = .pipeline ∧
    ∃ st ∈ (d.content source).statements, path ∈ st.argumentPaths (d.content source)

/-- A pipeline of a document has a path at the end of an arrow. -/
def Text.HasArrowEnd (source path : Text) : Prop :=
  ∃ d ∈ source.declarations, d.kind = .pipeline ∧
    ∃ st ∈ (d.content source).statements, path ∈ st.arrowPaths

instance (source path : Text) : Decidable (source.HasArgument path) :=
  inferInstanceAs (Decidable (∃ d ∈ source.declarations, d.kind = .pipeline ∧
    ∃ st ∈ (d.content source).statements, path ∈ st.argumentPaths (d.content source)))

instance (source path : Text) : Decidable (source.HasArrowEnd path) :=
  inferInstanceAs (Decidable (∃ d ∈ source.declarations, d.kind = .pipeline ∧
    ∃ st ∈ (d.content source).statements, path ∈ st.arrowPaths))

/-! ### The ids of a path -/

theorem IsIdentifier.pathField?_append_dot {t : Text} (h : IsIdentifier t) (path : Text) :
    pathField? (t ++ '.' :: path) = some (pathRoot path) := by
  rw [pathField?, List.dropWhile_append_of_pos h.ne_dot, List.dropWhile_cons_of_neg (by simp)]
  rfl

theorem isIdentifier_inputWord : IsIdentifier inputWord := by decide

theorem IsDottedPath.pathRoot_eq_self_iff {q : Text} (hq : IsDottedPath q) :
    pathRoot q = q ↔ IsIdentifier q :=
  ⟨fun h => h ▸ hq.isIdentifier_root, IsIdentifier.pathRoot_eq⟩

namespace Graph

/-- A path below the input in the arguments of a call adds the node of its first segment. -/
theorem addReference_input (g : Graph) (results : Results) (module : Option Text) (q : Text)
    (span : Span) : g.addReference results module ⟨inputWord ++ '.' :: q, span⟩ =
      match module with
      | some m => (g.addInput (pathRoot q)).addEdge .dataFlow (pathRoot q) m
      | none => g.addInput (pathRoot q) := by
  have hroot := isIdentifier_inputWord.pathRoot_append_dot q
  have hfield := isIdentifier_inputWord.pathField?_append_dot q
  cases module <;> simp [addReference, Reference.root, Reference.field?, hroot, hfield]

theorem endpointId_input (q : Text) : endpointId (inputWord ++ '.' :: q) = q :=
  standsFor_iff.mp (Or.inl rfl)

/-- A path below the input at the end of an arrow adds the node of all that follows. -/
theorem addEndpoint_input (g : Graph) (q : Text) :
    g.addEndpoint (inputWord ++ '.' :: q) = g.addInput q := by
  have hskip : (inputWord ++ '.' :: q).skip? (inputWord ++ ['.']) = some q :=
    Text.skip?_eq_some_iff.mpr (by simp)
  rw [addEndpoint, hskip]

theorem hasNode_of_names {source : Text} {d : Declaration} {st : Statement} {id : Text}
    (hd : d ∈ source.declarations) (hkind : d.kind = .pipeline)
    (hst : st ∈ (d.content source).statements) (hid : st.Names (d.content source) id) :
    source.dependencies.HasNode id :=
  ((grows_dependencies source).node_iff id).mpr
    (Or.inr ⟨d, mem_filter_kind.mpr ⟨hd, hkind⟩, st, hst, hid⟩)

end Graph

theorem Text.HasArgument.hasNode {source q : Text} (h : source.HasArgument (inputWord ++ '.' :: q)) :
    source.dependencies.HasNode (pathRoot q) := by
  obtain ⟨d, hd, hkind, st, hst, hpath⟩ := h
  refine Graph.hasNode_of_names hd hkind hst ?_
  cases st with
  | arrow chain => simp [Statement.argumentPaths] at hpath
  | call c =>
    obtain ⟨r, hr, hpath⟩ := List.mem_map.mp hpath
    refine .input (Graph.mem_callReferences.mp hr) ?_ ?_
    · rw [Reference.root, hpath, isIdentifier_inputWord.pathRoot_append_dot]
    · rw [Reference.field?, hpath, isIdentifier_inputWord.pathField?_append_dot]

theorem Text.HasArrowEnd.hasNode {source q : Text} (h : source.HasArrowEnd (inputWord ++ '.' :: q)) :
    source.dependencies.HasNode q := by
  obtain ⟨d, hd, hkind, st, hst, hpath⟩ := h
  refine Graph.hasNode_of_names hd hkind hst ?_
  cases st with
  | call c => simp [Statement.arrowPaths] at hpath
  | arrow chain =>
    obtain ⟨e, he, hpath⟩ := List.mem_map.mp hpath
    exact .arrow he (Or.inl hpath)

/-! ### The nodes of a path -/

/-- **The nodes of an input path.** In arguments it adds and joins the node of its first segment, at
the end of an arrow that of all its segments. A document with both has these two nodes and no other
with their ids, and they are one node exactly if the path has one segment. -/
theorem inputPath_nodes (q : Text) (hq : IsDottedPath q) :
    (∀ (g : Graph) results module span,
      g.addReference results module ⟨inputWord ++ '.' :: q, span⟩ =
        match module with
        | some m => (g.addInput (pathRoot q)).addEdge .dataFlow (pathRoot q) m
        | none => g.addInput (pathRoot q)) ∧
    (∀ (g : Graph) y,
      g.addLink (inputWord ++ '.' :: q, y) =
        ((g.addInput q).addEndpoint y).addEdge .dataFlow q (Graph.endpointId y) ∧
      g.addLink (y, inputWord ++ '.' :: q) =
        ((g.addEndpoint y).addInput q).addEdge .dataFlow (Graph.endpointId y) q) ∧
    ∀ source : Text, source.HasArgument (inputWord ++ '.' :: q) →
      source.HasArrowEnd (inputWord ++ '.' :: q) →
      ∃ read ∈ source.dependencies.nodes, ∃ drawn ∈ source.dependencies.nodes,
        read.id = pathRoot q ∧ drawn.id = q ∧
        (∀ n ∈ source.dependencies.nodes, n.id = pathRoot q ∨ n.id = q → n = read ∨ n = drawn) ∧
        (read = drawn ↔ IsIdentifier q) := by
  refine ⟨fun g results module span => g.addReference_input results module q span, fun g y => ?_,
    fun source harg harrow => ?_⟩
  · simp only [Graph.addLink, Graph.addEndpoint_input, Graph.endpointId_input, and_self]
  · have hnodup := (Graph.above_dependencies source).tidy.nodup_ids
    have hsame := fun {n m} hn hm => List.inj_on_of_nodup_map (x := n) (y := m) hnodup hn hm
    obtain ⟨read, hread, hreadId⟩ := harg.hasNode
    obtain ⟨drawn, hdrawn, hdrawnId⟩ := harrow.hasNode
    refine ⟨read, hread, drawn, hdrawn, hreadId, hdrawnId, fun n hn hid => ?_, ?_⟩
    · exact hid.imp (fun h => hsame hn hread (h.trans hreadId.symm))
        fun h => hsame hn hdrawn (h.trans hdrawnId.symm)
    · rw [← hq.pathRoot_eq_self_iff, ← hreadId]
      constructor
      · rintro rfl
        exact hdrawnId
      · exact fun h => hsame hread hdrawn (h.trans hdrawnId.symm)

theorem inputPath_nodes_single :
    let source : Text :=
      "module \"m\" \x7b\x7d pipeline \"p\" \x7b run m(input.a) input.a -> m \x7d".toList
    source.HasArgument "input.a".toList ∧ source.HasArrowEnd "input.a".toList ∧
      ∃ read ∈ source.dependencies.nodes, ∃ drawn ∈ source.dependencies.nodes,
        read.id = ['a'] ∧ drawn.id = ['a'] ∧ read = drawn := by
  intro source
  have harg : source.HasArgument "input.a".toList := by decide +kernel
  have harrow : source.HasArrowEnd "input.a".toList := by decide +kernel
  have hpath : IsIdentifier ['a'] := by decide
  obtain ⟨-, -, hnodes⟩ := inputPath_nodes ['a'] (.identifier hpath)
  obtain ⟨read, hread, drawn, hdrawn, hreadId, hdrawnId, -, hsame⟩ := hnodes source harg harrow
  exact ⟨harg, harrow, read, hread, drawn, hdrawn, hreadId, hdrawnId, hsame.mpr hpath⟩

/-- **A path of two segments has two nodes**, and what flows from it to one module flows twice. -/
theorem inputPath_two_nodes :
    let source : Text :=
      "module \"m\" \x7b\x7d pipeline \"p\" \x7b run m(input.a.b) input.a.b -> m \x7d".toList
    source.HasArgument "input.a.b".toList ∧ source.HasArrowEnd "input.a.b".toList ∧
      source.dependencies.nodes.map (·.id) = [['m'], ['a'], ['a', '.', 'b']] ∧
      source.dependencies.edges = 
        [.between ['a'] ['m'] .dataFlow, .between ['a', '.', 'b'] ['m'] .dataFlow] := by
  decide +kernel

end PipelineDoc
