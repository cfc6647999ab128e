import PipelineDoc.Proofs.Grammar.Heads
import PipelineDoc.Proofs.Graph.Modules

/-!
# The ids of edges

The id of an edge joins the ids of its ends by a dash. Two edges with different ends may get the
same id in this way, since a quoted name may hold dashes of its own. In the dependency graph of a
document they never do. A quoted name with a dash or a colon is no path, so nothing flows into it or
out of it, and the only edge at its module is the one to its runtime block. That edge names the
module twice, and is told by its length; an edge along which data flows has no dash but the one
between its ends (`Edge.ends_eq_of_id_eq`). Main statement: `nodup_edgeIds`.
-/

namespace PipelineDoc

/-- An edge leads from a module to its runtime block, or joins two ids made of path characters. -/
inductive Edge.IsNamed : Edge → Prop
  | runtime (id : Text) (kind : EdgeKind) : IsNamed (.between id (nestedId id runtimeWord) kind)
  | flow {s t : Text} (hs : ∀ c ∈ s, isPathChar c = true) (ht : ∀ c ∈ t, isPathChar c = true)
      (kind : EdgeKind) : IsNamed (.between s t kind)

/-! ### An id tells the ends -/

/-- The id of an edge to a runtime block has a colon, and no other id has. -/
theorem Edge.runtimeId_ne {id s t : Text} (hs : ∀ c ∈ s, isPathChar c = true)
    (ht : ∀ c ∈ t, isPathChar c = true) : id ++ '-' :: nestedId id runtimeWord ≠ s ++ '-' :: t := by
  intro h
  have hmem : ':' ∈ s ++ '-' :: t := by
    rw [← h]
    exact List.mem_append_right _ (List.mem_cons_of_mem _ (colon_mem_nestedId id runtimeWord))
  rcases List.mem_append.mp hmem with hmem | hmem
  · exact absurd (hs _ hmem) (by decide)
  · rcases List.mem_cons.mp hmem with heq | hmem
    · exact absurd heq (by decide)
    · exact absurd (ht _ hmem) (by decide)

theorem Edge.ends_eq_of_id_eq {e e' : Edge} (h : e.IsNamed) (h' : e'.IsNamed) (hid : e.id = e'.id) :
    (e.source, e.target) = (e'.source, e'.target) := by
  rcases h with ⟨id, kind⟩ | ⟨hs, ht, kind⟩ <;> rcases h' with ⟨id', kind'⟩ | ⟨hs', ht', kind'⟩ <;>
    simp only [Edge.between] at hid ⊢
  · -- the two names of the module are as long as those of the other
    have hlen : id.length = id'.length := by
      have := congrArg List.length hid
      simp only [nestedId, List.length_append, List.length_cons] at this
      omega
    rw [(List.append_inj hid hlen).1]
  · exact absurd hid (Edge.runtimeId_ne hs' ht')
  · exact absurd hid.symm (Edge.runtimeId_ne hs ht)
  · have hdash : ∀ {u : Text}, (∀ c ∈ u, isPathChar c = true) → '-' ∉ u := fun hu hmem =>
      absurd (hu _ hmem) (by decide)
    obtain ⟨hsource, htarget⟩ := Text.append_inj_of_not_mem (p := []) (q := []) hid (hdash hs)
      (hdash hs') (Nat.le_refl _) (Nat.zero_le _)
    rw [List.nil_append, List.nil_append] at hsource
    rw [hsource, htarget]

/-! ### The edges of a document -/

theorem subset_of_pathField? {path field : Text} (h : pathField? path = some field) :
    field ⊆ path := by
  unfold pathField? at h
  split at h
  · next c rest hdrop =>
    cases h
    intro d hd
    exact (List.dropWhile_sublist _).subset
      (hdrop ▸ List.mem_cons_of_mem _ ((List.takeWhile_sublist _).subset hd))
  · cases h

theorem StandsFor.subset {path id : Text} (h : StandsFor path id) : id ⊆ path := by
  rcases h with rfl | ⟨rfl, -⟩
  · intro c hc
    exact List.mem_append_right _ (List.mem_cons_of_mem _ hc)
  · exact List.Subset.refl _

/-- **Data flows between ids made of path characters**: input fields, called modules and ends of
arrows. -/
theorem Statement.Flows.ends_isPathChar {source body : Text} {before after : List Statement}
    {st : Statement} {s t : Text} (h : st.Flows source body before s t)
    (hst : body.statements = before ++ st :: after) :
    (∀ c ∈ s, isPathChar c = true) ∧ ∀ c ∈ t, isPathChar c = true := by
  have hmem : st ∈ body.statements := by simp [hst]
  have hmodule : ∀ {c : Call}, .call c ∈ body.statements → ∀ x ∈ c.module, isPathChar x = true :=
    fun hc => (standsIn_of_mem_statements hc).isDottedPath.isPathChar
  cases h with
  | input hc hr hroot hfield hne =>
    obtain ⟨args, -, hr⟩ := hr
    have hpath := (standsIn_of_mem_references hr).isDottedPath.isPathChar
    exact ⟨fun x hx => hpath x (subset_of_pathField? hfield hx), hmodule hmem⟩
  | @result c b r hc hr hroot hb hdecl hne =>
    obtain ⟨older, newer, rfl, -, -⟩ := hb
    have hb : .call b ∈ body.statements := by simp [hst]
    exact ⟨hmodule hb, hmodule hmem⟩
  | @arrow chain x y s t hlink hs ht hne =>
    have hend : ∀ x ∈ chain.endpoints.map (·.1), ∀ c ∈ x, isPathChar c = true := by
      intro x hx
      obtain ⟨e, he, rfl⟩ := List.mem_map.mp hx
      exact (isDottedPath_of_mem_endpoints hmem e he).isPathChar
    obtain ⟨hx, hy⟩ := List.of_mem_zip hlink
    exact ⟨fun c hc => hend x hx c (hs.subset hc),
      fun c hc => hend y (List.mem_of_mem_tail hy) c (ht.subset hc)⟩

theorem isNamed_of_mem_edges {source : Text} {e : Edge} (he : e ∈ source.dependencies.edges) :
    e.IsNamed := by
  rcases ((Graph.grows_dependencies source).edge_iff e).mp he with
    he | ⟨d, -, hflow, before, st, after, hst, hflows⟩
  · obtain ⟨d, -, -, rfl⟩ := ((Graph.holds_foldl source source.modules).edge_iff e).mp he
    exact .runtime d.name .structural
  · obtain ⟨hs, ht⟩ := hflows.ends_isPathChar hst
    rw [hflow]
    exact .flow hs ht .dataFlow

/-- **No two edges of a dependency graph have the same id.** -/
theorem nodup_edgeIds (source : Text) : (source.dependencies.edges.map Edge.id).Nodup := by
  have hends := (Graph.above_dependencies source).tidy.nodup_ends
  refine List.Nodup.map_on (fun e he e' he' hid => ?_) hends.of_map
  exact List.inj_on_of_nodup_map hends he he'
    (Edge.ends_eq_of_id_eq (isNamed_of_mem_edges he) (isNamed_of_mem_edges he') hid)

/-- In a graph that is put together otherwise, two edges may have one id. -/
example :
    let ids : List Text := [['a'], ['b', '-', 'c'], ['a', '-', 'b'], ['c']]
    let g := ids.foldl (fun g id => g.addNode .module id id) Graph.empty
    let g := (g.addEdge .dataFlow ['a'] ['b', '-', 'c']).addEdge .dataFlow ['a', '-', 'b'] ['c']
    g.edges.map Edge.id = [['a', '-', 'b', '-', 'c'], ['a', '-', 'b', '-', 'c']] := by
  decide

end PipelineDoc
