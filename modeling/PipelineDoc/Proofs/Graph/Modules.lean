import Mathlib.Data.List.Dedup
import Mathlib.Data.List.Perm.Subperm
import PipelineDoc.Proofs.Graph.Dependencies

/-!
# The modules of a dependency graph

Modules, runtime blocks, input fields and ends of arrows share one set of ids, and the first node
with an id stays. All modules are added before the pipelines are followed, so no field and no arrow
can take the name of a module. A runtime block can: it is added together with its module, under an
id that a quoted name may spell as well. So the nodes that stand for modules are those of the
declared names that no runtime block has taken before (`moduleIds_exactly`), and a name that is
taken is missing among them (`moduleIds_missing`).
-/

namespace PipelineDoc

/-- The ids of the nodes that stand for modules. -/
def Graph.moduleIds (g : Graph) : List Text :=
  (g.nodes.filter fun n => n.kind == .module).map (·.id)

/-- Of modules that are declared one after the other, one has a runtime block with an id that none
before it has as its name. -/
def TakenByRuntime (source : Text) (ds : List Declaration) (id : Text) : Prop :=
  ∃ older d newer, ds = older ++ d :: newer ∧ (d.runtime? source).isSome ∧
    id = nestedId d.name runtimeWord ∧ ∀ e ∈ older, e.name ≠ id

/-- One more module takes the id of its runtime block, unless a module before it has that name. -/
theorem takenByRuntime_concat {source : Text} {ds : List Declaration} {d : Declaration} {id : Text} :
    TakenByRuntime source (ds ++ [d]) id ↔ TakenByRuntime source ds id ∨
      (d.runtime? source).isSome ∧ id = nestedId d.name runtimeWord ∧ ∀ e ∈ ds, e.name ≠ id := by
  constructor
  · rintro ⟨older, e, newer, hsplit, hr, hid, hfirst⟩
    rcases List.eq_nil_or_concat' newer with rfl | ⟨newer, last, rfl⟩
    · obtain ⟨rfl, heq⟩ := List.append_inj' hsplit rfl
      cases heq
      exact Or.inr ⟨hr, hid, hfirst⟩
    · rw [← List.cons_append, ← List.append_assoc] at hsplit
      obtain ⟨rfl, -⟩ := List.append_inj' hsplit rfl
      exact Or.inl ⟨older, e, newer, rfl, hr, hid, hfirst⟩
  · rintro (⟨older, e, newer, rfl, hr, hid, hfirst⟩ | ⟨hr, hid, hfirst⟩)
    · exact ⟨older, e, newer ++ [d], by simp, hr, hid, hfirst⟩
    · exact ⟨ds, d, [], rfl, hr, hid, hfirst⟩

/-- A name that no module has is taken as soon as a runtime block has it as its id. -/
theorem takenByRuntime_iff {source : Text} {ds : List Declaration} {id : Text}
    (hid : ∀ e ∈ ds, e.name ≠ id) : TakenByRuntime source ds id ↔
      ∃ d ∈ ds, (d.runtime? source).isSome ∧ id = nestedId d.name runtimeWord := by
  constructor
  · rintro ⟨older, d, newer, rfl, hr, heq, -⟩
    exact ⟨d, by simp, hr, heq⟩
  · rintro ⟨d, hd, hr, heq⟩
    obtain ⟨older, newer, rfl⟩ := List.append_of_mem hd
    exact ⟨older, d, newer, rfl, hr, heq, fun e he => hid e (List.mem_append_left _ he)⟩

namespace Graph

theorem isModule_addDeclaredModule {g : Graph} {source : Text} {d : Declaration} {id : Text} :
    (g.addDeclaredModule source d).isModule id = true ↔
      g.isModule id = true ∨ id = d.name ∧ ¬ g.HasNode d.name := by
  unfold addDeclaredModule
  cases d.runtime? source with
  | none => simp [isModule_addNode]
  | some block => simp [isModule_addEdge, isModule_addNode]

/-- **The modules of the graph of modules**: a declared name stands for a module unless a runtime
block has taken it. -/
theorem isModule_foldl_iff (source : Text) (ds : List Declaration) (id : Text) :
    (ds.foldl (Graph.addDeclaredModule source) .empty).isModule id = true ↔
      (∃ d ∈ ds, d.name = id) ∧ ¬ TakenByRuntime source ds id := by
  induction ds using List.reverseRecOn with
  | nil => simp [isModule, node?, empty]
  | append_singleton ds d ih =>
    have hnode := (holds_foldl source ds).node_iff
    rw [List.foldl_append, List.foldl_cons, List.foldl_nil, isModule_addDeclaredModule, ih,
      takenByRuntime_concat, hnode]
    by_cases hdecl : ∃ e ∈ ds, e.name = id
    · -- the name is there already, so the new module changes nothing about it
      obtain ⟨e, he, hname⟩ := hdecl
      have hlate : ¬ ∀ e ∈ ds, e.name ≠ id := fun h => h e he hname
      have hold : ∃ d' ∈ ds, d'.name = id := ⟨e, he, hname⟩
      have hnew : ∃ d' ∈ ds ++ [d], d'.name = id := ⟨e, List.mem_append_left _ he, hname⟩
      simp only [hold, hnew, hlate, and_false, or_false, true_and]
      refine ⟨fun h => h.resolve_right ?_, Or.inl⟩
      rintro ⟨rfl, hfree⟩
      exact hfree ⟨e, he, Or.inl hname.symm⟩
    · -- the name is new, so its id is taken only by runtime blocks
      have hfirst : ∀ e ∈ ds, e.name ≠ id := fun e he hname => hdecl ⟨e, he, hname⟩
      have hself : id = d.name → ¬ id = nestedId d.name runtimeWord := by
        rintro rfl
        exact ne_nestedId d.name runtimeWord
      rw [takenByRuntime_iff hfirst]
      simp only [hdecl, false_and, false_or, List.mem_append, List.mem_singleton]
      constructor
      · rintro ⟨rfl, hfree⟩
        refine ⟨⟨d, Or.inr rfl, rfl⟩, ?_⟩
        rintro (⟨e, he, hr, heq⟩ | ⟨-, heq, -⟩)
        · exact hfree ⟨e, he, Or.inr ⟨hr, heq⟩⟩
        · exact hself rfl heq
      · rintro ⟨⟨e, he | rfl, rfl⟩, hfree⟩
        · exact absurd rfl (hfirst e he)
        · refine ⟨rfl, ?_⟩
          rintro ⟨e', he', heq | ⟨hr, heq⟩⟩
          · exact hfirst e' he' heq.symm
          · exact hfree (Or.inl ⟨e', he', hr, heq⟩)

theorem mem_moduleIds_iff {g : Graph} (h : (g.nodes.map (·.id)).Nodup) {id : Text} :
    id ∈ g.moduleIds ↔ g.isModule id = true := by
  simp only [moduleIds, isModule, List.mem_map, List.mem_filter, beq_iff_eq]
  constructor
  · rintro ⟨n, ⟨hn, hkind⟩, hid⟩
    obtain ⟨m, hm⟩ := Option.isSome_iff_exists.mp (node?_isSome_iff.mpr ⟨n, hn, hid⟩)
    have hid' : m.id = id := by simpa using List.find?_some hm
    have hsame : m = n :=
      List.inj_on_of_nodup_map h (List.mem_of_find?_eq_some hm) hn (hid'.trans hid.symm)
    simp [hm, hsame, hkind]
  · intro hany
    obtain ⟨n, hn, hkind⟩ := (Option.any_eq_true _ _).mp hany
    exact ⟨n, ⟨List.mem_of_find?_eq_some hn, by simpa using hkind⟩, by simpa using List.find?_some hn⟩

theorem grows_dependencies (source : Text) :
    Grows (source.modules.foldl (Graph.addDeclaredModule source) .empty) source.dependencies
      (fun id => ∃ d ∈ source.declarations.filter fun d => d.kind == .pipeline,
        ∃ st ∈ (d.content source).statements, st.Names (d.content source) id)
      fun e => ∃ d ∈ source.declarations.filter fun d => d.kind == .pipeline,
        e.IsFlow ∧ ∃ before st after,
          (d.content source).statements = before ++ st :: after ∧
            st.Flows source (d.content source) before e.source e.target := by
  have hbase := holds_foldl source source.modules
  exact Grows.foldl hbase.tidy (f := Graph.addPipeline source) fun d _ g' hg' =>
    addPipeline_grows hg'.tidy (hbase.knows.above hg') d

theorem above_dependencies (source : Text) :
    Above (source.modules.foldl (Graph.addDeclaredModule source) .empty) source.dependencies :=
  (grows_dependencies source).above

end Graph

theorem length_eq_dedup_iff {xs ys : List Text} (hxs : xs.Nodup) (hsub : ∀ x ∈ xs, x ∈ ys) :
    xs.length = ys.dedup.length ↔ ∀ y ∈ ys, y ∈ xs := by
  have hle : xs.Subperm ys.dedup :=
    List.subperm_of_subset hxs fun x hx => List.mem_dedup.mpr (hsub x hx)
  constructor
  · intro hlen y hy
    exact (hle.perm_of_length_le (Nat.le_of_eq hlen.symm)).mem_iff.mpr (List.mem_dedup.mpr hy)
  · intro hall
    refine Nat.le_antisymm hle.length_le (List.Subperm.length_le ?_)
    exact List.subperm_of_subset ys.nodup_dedup fun y hy => hall y (List.mem_dedup.mp hy)

/-- **The modules of a dependency graph** are the declared names that no runtime block of an earlier
module has taken, each once. So they are as many as the different names exactly if no declared name
is taken. -/
theorem moduleIds_exactly (source : Text) :
    source.dependencies.moduleIds.Nodup ∧
      (∀ id, id ∈ source.dependencies.moduleIds ↔
        source.Declares id ∧ ¬ TakenByRuntime source source.modules id) ∧
      (source.dependencies.moduleIds.length = (source.modules.map (·.name)).dedup.length ↔
        ∀ id, source.Declares id → ¬ TakenByRuntime source source.modules id) := by
  have habove := Graph.above_dependencies source
  have hnodup : source.dependencies.moduleIds.Nodup :=
    habove.tidy.nodup_ids.sublist (List.filter_sublist.map _)
  have hdeclares : ∀ id, (∃ d ∈ source.modules, d.name = id) ↔ source.Declares id := fun id => by
    simp only [Text.modules, Graph.mem_filter_kind, Text.Declares, and_assoc]
  have hmem : ∀ id, id ∈ source.dependencies.moduleIds ↔
      source.Declares id ∧ ¬ TakenByRuntime source source.modules id := fun id => by
    rw [Graph.mem_moduleIds_iff habove.tidy.nodup_ids, habove.isModule, Graph.isModule_foldl_iff,
      hdeclares]
  refine ⟨hnodup, hmem, ?_⟩
  rw [length_eq_dedup_iff hnodup fun id hid => List.mem_map.mpr ((hdeclares id).mpr ((hmem id).mp hid).1)]
  simp only [List.mem_map, hdeclares, hmem]
  exact forall_congr' fun id => ⟨fun h hid => (h hid).2, fun h hid => ⟨hid, h hid⟩⟩

/-- **A declared module can be missing**: its name is the id of the runtime block of an earlier one.
-/
theorem moduleIds_missing :
    let source : Text := "module \"m\" \x7b runtime \x7b\x7d \x7d module \"m::runtime\" \x7b\x7d".toList
    source.Declares "m::runtime".toList ∧ source.dependencies.moduleIds = [['m']] ∧
      (source.modules.map (·.name)).dedup.length = 2 := by
  intro source
  have hdeclares : ∃ d ∈ source.declarations, d.kind = .module ∧ d.name = "m::runtime".toList := by
    decide +kernel
  exact ⟨hdeclares, by decide +kernel, by decide +kernel⟩

end PipelineDoc
