import Mathlib.Data.List.Induction
import PipelineDoc.Proofs.Graph.Flow

/-!
# The dependency graph meets its specification

The graph of a document has the edges of `Dependency` and the nodes of `Named`, each once
(`dependencies_exactly`). The modules come first and make a graph that *knows* what the document
declares. From there on the modules stay what they are, and every statement adds what flows by it:
while a body is followed, the table of results gives the latest binding of each name (`Tracks`).
-/

namespace PipelineDoc.Graph

/-- The modules that a document declares are nodes, and a path is a module only if it is declared. A
quoted name with a colon may be the id of a runtime block as well. -/
structure Knows (g : Graph) (source : Text) : Prop where
  hasNode : ∀ {id}, source.Declares id → g.HasNode id
  isModule_iff : ∀ {id}, ':' ∉ id → (g.isModule id = true ↔ source.Declares id)

theorem Knows.above {source : Text} {g g' : Graph} (h : g.Knows source) (hg : Above g g') :
    g'.Knows source :=
  ⟨fun hid => hg.hasNode (h.hasNode hid), fun hid => by rw [hg.isModule, h.isModule_iff hid]⟩

/-- The table of results after the statements `before`: a name gives the module of the latest call
that binds it, if that module is declared. -/
def Tracks (source : Text) (before : List Statement) (results : Results) : Prop :=
  ∀ name m, results.producer? name = some m ↔
    ∃ b, Latest before name b ∧ source.Declares b.module ∧ b.module = m

theorem tracks_nil (source : Text) : Tracks source [] [] := by
  intro name m
  constructor
  · intro h
    cases h
  · rintro ⟨b, ⟨older, newer, h, -⟩, -⟩
    exact absurd h.symm (by simp)

variable {source body : Text} {before : List Statement} {g : Graph} {results : Results}

/-! ### Calls -/

theorem mem_callReferences {c : Call} {r : Reference} :
    r ∈ callReferences body c ↔ c.RefersBy body r := by
  unfold callReferences Call.RefersBy
  cases c.args <;> simp

theorem calledModule?_eq_some_iff (hk : g.Knows source) {c : Call} (hc : IsDottedPath c.module)
    {m : Text} : g.calledModule? c = some m ↔ source.Declares c.module ∧ c.module = m := by
  rw [← hk.isModule_iff hc.not_mem_colon, calledModule?]
  by_cases h : g.isModule c.module = true <;> simp [h]

/-- What a reference brings into a call. -/
def origin? (results : Results) (r : Reference) : Option Text :=
  if r.root = inputWord then r.field? else results.producer? r.root

/-- Adds the edge from what flows to the called module, if both are known. -/
def addFlow (g : Graph) : Option Text → Option Text → Graph
  | some origin, some module => g.addEdge .dataFlow origin module
  | _, _ => g

theorem addFlow_grows (hg : g.Tidy) {o m : Option Text} (ho : ∀ id ∈ o, g.HasNode id)
    (hm : ∀ id ∈ m, g.HasNode id ∧ ':' ∉ id) :
    Grows g (g.addFlow o m) (fun _ => False)
      fun e => e.IsFlow ∧ e.source ≠ e.target ∧ m = some e.target ∧ o = some e.source := by
  cases o with
  | none => exact (Grows.refl hg).congr (by simp) (by simp)
  | some s =>
    cases m with
    | none => exact (Grows.refl hg).congr (by simp) (by simp)
    | some t =>
      obtain ⟨hnode, hcolon⟩ := hm t rfl
      refine (Grows.addEdge hg (ho s rfl) hnode (by simp [hcolon])).congr (fun _ => Iff.rfl)
        fun e => ?_
      constructor
      · rintro ⟨hne, rfl⟩
        exact ⟨rfl, hne, rfl, rfl⟩
      · rintro ⟨hflow, hne, ht, hs⟩
        cases ht
        cases hs
        exact ⟨hne, hflow⟩

theorem addReference_grows (hg : g.Tidy) {m : Option Text}
    (hm : ∀ id ∈ m, g.HasNode id ∧ ':' ∉ id) {r : Reference}
    (hr : ∀ id ∈ results.producer? r.root, g.HasNode id) :
    Grows g (addReference results m g r) (fun id => r.root = inputWord ∧ r.field? = some id)
      fun e => e.IsFlow ∧ e.source ≠ e.target ∧ m = some e.target ∧
        origin? results r = some e.source := by
  by_cases hroot : r.root = inputWord
  · cases hfield : r.field? with
    | none =>
      have hadd : addReference results m g r = g := by
        simp only [addReference, if_pos hroot, hfield]
      have ho : origin? results r = none := by rw [origin?, if_pos hroot, hfield]
      rw [hadd, ho]
      exact (Grows.refl hg).congr (by simp) (by simp)
    | some field =>
      have hadd : addReference results m g r = (g.addInput field).addFlow (some field) m := by
        simp only [addReference, if_pos hroot, hfield]
        cases m <;> rfl
      have ho : origin? results r = some field := by rw [origin?, if_pos hroot, hfield]
      rw [hadd, ho]
      -- the field is a node before the edge from it is added
      have hnode : Grows g (g.addInput field) (· = field) fun _ => False :=
        Grows.addNode hg (by decide) field field
      have hedge := addFlow_grows (o := some field) hnode.above.tidy
        (fun id hid => (hnode.node_iff id).mpr (Or.inr (Option.mem_some.mp hid).symm))
        fun id hid => ⟨hnode.above.hasNode (hm id hid).1, (hm id hid).2⟩
      exact (hnode.trans hedge).congr (by simp [hroot, eq_comm]) (by simp)
  · have hadd : addReference results m g r = g.addFlow (results.producer? r.root) m := by
      simp only [addReference, if_neg hroot]
      cases results.producer? r.root <;> cases m <;> rfl
    rw [hadd, origin?, if_neg hroot]
    exact (addFlow_grows hg hr hm).congr (by simp [hroot]) fun _ => Iff.rfl

theorem addCall_fst (c : Call) :
    (addCall body (g, results) c).1 =
      (callReferences body c).foldl (addReference results (g.calledModule? c)) g := by
  simp only [addCall]
  split <;> rfl

theorem flows_call_iff {c : Call} {s t : Text} :
    Statement.Flows source body before (.call c) s t ↔
      (source.Declares c.module ∧ c.module = t) ∧ s ≠ t ∧ ∃ r, c.RefersBy body r ∧
        (r.root = inputWord ∧ r.field? = some s ∨
          r.root ≠ inputWord ∧ ∃ b, Latest before r.root b ∧ source.Declares b.module ∧
            b.module = s) := by
  constructor
  · rintro (⟨hc, hr, hroot, hfield, hne⟩ | ⟨hc, hr, hroot, hb, hdecl, hne⟩)
    · exact ⟨⟨hc, rfl⟩, hne, _, hr, Or.inl ⟨hroot, hfield⟩⟩
    · exact ⟨⟨hc, rfl⟩, hne, _, hr, Or.inr ⟨hroot, _, hb, hdecl, rfl⟩⟩
  · rintro ⟨⟨hc, rfl⟩, hne, r, hr, ⟨hroot, hfield⟩ | ⟨hroot, b, hb, hdecl, rfl⟩⟩
    · exact .input hc hr hroot hfield hne
    · exact .result hc hr hroot hb hdecl hne

theorem Tracks.origin?_eq_some_iff (h : Tracks source before results) {r : Reference} {s : Text} :
    origin? results r = some s ↔
      r.root = inputWord ∧ r.field? = some s ∨
        r.root ≠ inputWord ∧ ∃ b, Latest before r.root b ∧ source.Declares b.module ∧
          b.module = s := by
  unfold origin?
  by_cases hroot : r.root = inputWord
  · simp [hroot]
  · rw [if_neg hroot, h]
    simp [hroot]

theorem addCall_grows (hg : g.Tidy) (hk : g.Knows source) (ht : Tracks source before results)
    {c : Call} (hc : IsDottedPath c.module) :
    Grows g (addCall body (g, results) c).1 (Statement.Names body (.call c))
      fun e => e.IsFlow ∧ Statement.Flows source body before (.call c) e.source e.target := by
  have hcalled : ∀ m, g.calledModule? c = some m ↔ source.Declares c.module ∧ c.module = m :=
    fun m => calledModule?_eq_some_iff hk hc
  rw [addCall_fst]
  have hstep : ∀ r ∈ callReferences body c, ∀ g', Above g g' → Grows g' _ _ _ :=
    fun r _ g' hg' => addReference_grows (r := r) hg'.tidy
      (fun m hm => by
        obtain ⟨hdecl, rfl⟩ := (hcalled m).mp hm
        exact ⟨hg'.hasNode (hk.hasNode hdecl), hc.not_mem_colon⟩)
      fun m hm => by
        obtain ⟨b, -, hdecl, rfl⟩ := (ht _ _).mp hm
        exact hg'.hasNode (hk.hasNode hdecl)
  refine (Grows.foldl hg hstep).congr (fun id => ?_) fun e => ?_
  · constructor
    · rintro ⟨r, hr, hroot, hfield⟩
      exact .input (mem_callReferences.mp hr) hroot hfield
    · rintro ⟨hr, hroot, hfield⟩
      exact ⟨_, mem_callReferences.mpr hr, hroot, hfield⟩
  · rw [flows_call_iff]
    simp only [mem_callReferences, hcalled, ht.origin?_eq_some_iff]
    constructor
    · rintro ⟨r, hr, hkind, hne, hm, ho⟩
      exact ⟨hkind, hm, hne, r, hr, ho⟩
    · rintro ⟨hkind, hm, hne, r, hr, ho⟩
      exact ⟨r, hr, hkind, hne, hm, ho⟩

/-- A call that binds its result takes the name over, also when its module is not declared. -/
theorem Tracks.call (ht : Tracks source before results) (hk : g.Knows source) {c : Call}
    (hc : IsDottedPath c.module) :
    Tracks source (before ++ [.call c]) (addCall body (g, results) c).2 := by
  intro name m
  simp only [latest_concat, Statement.call.injEq, forall_eq']
  cases hbind : c.binding with
  | none =>
    have hno : ¬ c.Binds name := by
      rintro ⟨b, hb, -⟩
      rw [hbind] at hb
      cases hb
    have hsnd : (addCall body (g, results) c).2 = results := by simp only [addCall, hbind]
    rw [hsnd, ht]
    constructor
    · rintro ⟨b, hb, hdecl⟩
      exact ⟨b, Or.inr ⟨hno, hb⟩, hdecl⟩
    · rintro ⟨b, ⟨rfl, hb⟩ | ⟨-, hb⟩, hdecl⟩
      · exact absurd hb hno
      · exact ⟨b, hb, hdecl⟩
  | some binding =>
    have hbinds : c.Binds name ↔ name = binding.name := by
      simp [Call.Binds, hbind, eq_comm]
    have hsnd : (addCall body (g, results) c).2 =
        results.bind binding.name (g.calledModule? c) := by
      simp only [addCall, hbind]
    rw [hsnd, Results.producer?_bind, hbinds]
    by_cases hname : name = binding.name
    · rw [if_pos hname, calledModule?_eq_some_iff hk hc]
      constructor
      · intro hdecl
        exact ⟨c, Or.inl ⟨rfl, hbinds.mpr hname⟩, hdecl⟩
      · rintro ⟨b, ⟨rfl, -⟩ | ⟨hno, -⟩, hdecl⟩
        · exact hdecl
        · exact absurd hname hno
    · rw [if_neg hname, ht]
      constructor
      · rintro ⟨b, hb, hdecl⟩
        exact ⟨b, Or.inr ⟨hname, hb⟩, hdecl⟩
      · rintro ⟨b, ⟨rfl, hb⟩ | ⟨-, hb⟩, hdecl⟩
        · exact absurd (hbinds.mp hb) hname
        · exact ⟨b, hb, hdecl⟩

/-! ### Arrows -/

theorem Tracks.arrow (ht : Tracks source before results) (chain : Chain) :
    Tracks source (before ++ [.arrow chain]) results := by
  intro name m
  rw [ht]
  simp [latest_concat]

theorem addEndpoint_grows (hg : g.Tidy) (path : Text) :
    Grows g (g.addEndpoint path) (· = endpointId path) fun _ => False := by
  unfold addEndpoint endpointId
  cases path.skip? (inputWord ++ ['.']) with
  | none => exact Grows.addNode hg (by decide) path path
  | some field => exact Grows.addNode hg (by decide) field field

theorem addLink_grows (hg : g.Tidy) {link : Text × Text} (hlink : ':' ∉ endpointId link.2) :
    Grows g (g.addLink link) (fun id => id = endpointId link.1 ∨ id = endpointId link.2)
      fun e => endpointId link.1 ≠ endpointId link.2 ∧
        e = .between (endpointId link.1) (endpointId link.2) .dataFlow := by
  have h1 := addEndpoint_grows hg link.1
  have h2 := addEndpoint_grows h1.above.tidy link.2
  have hboth := h1.trans h2
  have hedge := Grows.addEdge hboth.above.tidy ((hboth.node_iff _).mpr (Or.inr (Or.inl rfl)))
    ((hboth.node_iff _).mpr (Or.inr (Or.inr rfl)))
    (show EdgeKind.dataFlow = .structural ↔ ':' ∈ endpointId link.2 by simp [hlink])
  exact (hboth.trans hedge).congr (by simp) (by simp)

theorem exists_mem_zip_tail {α : Type} {xs : List α} (hxs : 2 ≤ xs.length) {a : α} :
    (∃ link ∈ xs.zip xs.tail, a = link.1 ∨ a = link.2) ↔ a ∈ xs := by
  constructor
  · rintro ⟨⟨x, y⟩, hmem, rfl | rfl⟩
    · exact (List.of_mem_zip hmem).1
    · exact List.mem_of_mem_tail (List.of_mem_zip hmem).2
  · intro ha
    obtain ⟨i, hi, rfl⟩ := List.getElem_of_mem ha
    rcases Nat.lt_or_ge (i + 1) xs.length with hnext | hlast
    · exact ⟨(xs[i], xs[i + 1]), List.mem_iff_getElem.mpr ⟨i, by simp; omega, by simp⟩, Or.inl rfl⟩
    · obtain ⟨k, rfl⟩ : ∃ k, i = k + 1 := ⟨i - 1, by omega⟩
      exact ⟨(xs[k], xs[k + 1]), List.mem_iff_getElem.mpr ⟨k, by simp; omega, by simp⟩, Or.inr rfl⟩

/-- **A chain** adds its endpoints and what flows along its arrows. -/
theorem addChain_grows (hg : g.Tidy) {chain : Chain}
    (hpath : ∀ e ∈ chain.endpoints, IsDottedPath e.1) (htwo : 2 ≤ chain.endpoints.length) :
    Grows g (chain.links.foldl addLink g) (Statement.Names body (.arrow chain))
      fun e => e.IsFlow ∧
        Statement.Flows source body before (.arrow chain) e.source e.target := by
  have hnames : ∀ x ∈ chain.endpoints.map (·.1), IsDottedPath x := by
    intro x hx
    obtain ⟨e, he, rfl⟩ := List.mem_map.mp hx
    exact hpath e he
  have hstep : ∀ link ∈ chain.links, ∀ g', Above g g' → Grows g' _ _ _ :=
    fun link hlink g' hg' => addLink_grows hg'.tidy
      (hnames _ (List.mem_of_mem_tail (List.of_mem_zip hlink).2)).not_mem_colon_endpointId
  refine (Grows.foldl hg hstep).congr (fun id => ?_) fun e => ?_
  · have hmem : ∀ x, (∃ link ∈ chain.links, x = link.1 ∨ x = link.2) ↔
        x ∈ chain.endpoints.map (·.1) := fun x => exists_mem_zip_tail (by simpa using htwo)
    constructor
    · rintro ⟨link, hlink, hid⟩
      obtain ⟨x, hx, hid⟩ : ∃ x, (x = link.1 ∨ x = link.2) ∧ endpointId x = id := by
        rcases hid with rfl | rfl
        · exact ⟨_, Or.inl rfl, rfl⟩
        · exact ⟨_, Or.inr rfl, rfl⟩
      obtain ⟨e, he, rfl⟩ := List.mem_map.mp ((hmem x).mp ⟨link, hlink, hx⟩)
      exact .arrow he (standsFor_iff.mpr hid)
    · rintro ⟨⟩
      next e he hid =>
      obtain ⟨link, hlink, hx⟩ := (hmem e.1).mpr (List.mem_map_of_mem he)
      refine ⟨link, hlink, ?_⟩
      rw [← standsFor_iff.mp hid]
      exact hx.imp (congrArg endpointId) (congrArg endpointId)
  · constructor
    · rintro ⟨link, hlink, hne, rfl⟩
      exact ⟨rfl, .arrow hlink (standsFor_iff.mpr rfl) (standsFor_iff.mpr rfl) hne⟩
    · obtain ⟨id, s, t, kind⟩ := e
      rintro ⟨hflow, ⟨⟩⟩
      next x y hlink hs ht hne =>
      cases standsFor_iff.mp hs
      cases standsFor_iff.mp ht
      exact ⟨(x, y), hlink, hne, hflow⟩

/-! ### Pipelines -/

theorem addStatement_grows (hg : g.Tidy) (hk : g.Knows source) (ht : Tracks source before results)
    {st : Statement} (hst : st ∈ body.statements) :
    Grows g (addStatement body (g, results) st).1 (st.Names body)
        (fun e => e.IsFlow ∧ st.Flows source body before e.source e.target) ∧
      Tracks source (before ++ [st]) (addStatement body (g, results) st).2 := by
  cases st with
  | call c =>
    have hc := (standsIn_of_mem_statements hst).isDottedPath
    exact ⟨addCall_grows hg hk ht hc, ht.call hk hc⟩
  | arrow chain =>
    exact ⟨addChain_grows hg (isDottedPath_of_mem_endpoints hst) (two_le_length_endpoints hst),
      ht.arrow chain⟩

/-- **The statements of a body** add up, each after those before it. -/
theorem foldl_addStatement_grows {sts : List Statement} (hg : g.Tidy) (hk : g.Knows source)
    (ht : Tracks source before results) (hsts : ∀ st ∈ sts, st ∈ body.statements) :
    Grows g (sts.foldl (addStatement body) (g, results)).1 (fun id => ∃ st ∈ sts, st.Names body id)
      fun e => e.IsFlow ∧ ∃ older st newer, sts = older ++ st :: newer ∧
        st.Flows source body (before ++ older) e.source e.target := by
  induction sts generalizing before g results with
  | nil => exact (Grows.refl hg).congr (by simp) (by simp)
  | cons st sts ih =>
    obtain ⟨hfirst, htracks⟩ := addStatement_grows hg hk ht (hsts st List.mem_cons_self)
    have hrest := ih hfirst.above.tidy (hk.above hfirst.above) htracks
      fun st' h => hsts st' (List.mem_cons_of_mem _ h)
    refine (hfirst.trans hrest).congr (by simp) fun e => ?_
    rw [← and_or_left, and_congr_right_iff]
    intro _
    constructor
    · rintro (hflow | ⟨older, st', newer, rfl, hflow⟩)
      · exact ⟨[], st, sts, rfl, by rwa [List.append_nil]⟩
      · exact ⟨st :: older, st', newer, rfl, by rwa [List.append_cons]⟩
    · rintro ⟨older, st', newer, hsplit, hflow⟩
      rcases List.cons_eq_append_iff.mp hsplit with ⟨rfl, heq⟩ | ⟨older', rfl, rfl⟩
      · cases heq
        exact Or.inl (by rwa [List.append_nil] at hflow)
      · exact Or.inr ⟨older', st', newer, rfl, by rwa [List.append_cons] at hflow⟩

theorem Tracks.foldl_addStatement {sts : List Statement} (ht : Tracks source before results)
    (hg : g.Tidy) (hk : g.Knows source) (hsts : ∀ st ∈ sts, st ∈ body.statements) :
    Tracks source (before ++ sts) (sts.foldl (addStatement body) (g, results)).2 := by
  induction sts generalizing before g results with
  | nil => rwa [List.append_nil]
  | cons st sts ih =>
    obtain ⟨hfirst, htracks⟩ := addStatement_grows hg hk ht (hsts st List.mem_cons_self)
    rw [List.append_cons]
    exact ih htracks hfirst.above.tidy (hk.above hfirst.above)
      fun st' h => hsts st' (List.mem_cons_of_mem _ h)

theorem addPipeline_grows (hg : g.Tidy) (hk : g.Knows source) (d : Declaration) :
    Grows g (addPipeline source g d)
      (fun id => ∃ st ∈ (d.content source).statements, st.Names (d.content source) id)
      fun e => e.IsFlow ∧ ∃ before st after,
        (d.content source).statements = before ++ st :: after ∧
          st.Flows source (d.content source) before e.source e.target :=
  foldl_addStatement_grows hg hk (tracks_nil source) fun _ h => h

/-! ### Modules -/

/-- The graph of modules `ds` that are declared one after the other. -/
structure Holds (g : Graph) (source : Text) (ds : List Declaration) : Prop where
  tidy : g.Tidy
  node_iff : ∀ id, g.HasNode id ↔
    ∃ d ∈ ds, id = d.name ∨ (d.runtime? source).isSome ∧ id = nestedId d.name runtimeWord
  edge_iff : ∀ e, e ∈ g.edges ↔
    ∃ d ∈ ds, (d.runtime? source).isSome ∧
      e = .between d.name (nestedId d.name runtimeWord) .structural
  isModule_iff : ∀ id, ':' ∉ id → (g.isModule id = true ↔ ∃ d ∈ ds, d.name = id)

theorem holds_empty (source : Text) : Graph.empty.Holds source [] :=
  ⟨tidy_empty, by simp [HasNode, empty], by simp [empty], by simp [isModule, node?, empty]⟩

/-- The node of a module. Its id can be taken by a runtime block only if it has a colon. -/
theorem Holds.isModule_addNode_iff {ds : List Declaration} (h : g.Holds source ds)
    (d : Declaration) {id : Text} (hid : ':' ∉ id) :
    (g.addNode .module d.name d.name).isModule id = true ↔ ∃ d' ∈ ds ++ [d], d'.name = id := by
  rw [isModule_addNode, h.isModule_iff id hid]
  simp only [List.mem_append, List.mem_singleton, true_and]
  constructor
  · rintro (⟨d', hd', rfl⟩ | ⟨rfl, -⟩)
    · exact ⟨d', Or.inl hd', rfl⟩
    · exact ⟨d, Or.inr rfl, rfl⟩
  · rintro ⟨d', hd' | rfl, rfl⟩
    · exact Or.inl ⟨d', hd', rfl⟩
    · by_cases hnode : g.HasNode d'.name
      · obtain ⟨e, he, heq | ⟨-, heq⟩⟩ := (h.node_iff _).mp hnode
        · exact Or.inl ⟨e, he, heq.symm⟩
        · exact absurd (heq ▸ colon_mem_nestedId e.name runtimeWord) hid
      · exact Or.inr ⟨rfl, hnode⟩

/-- **One module** is added with its runtime block. -/
theorem Holds.addDeclaredModule {ds : List Declaration} (h : g.Holds source ds) (d : Declaration) :
    (g.addDeclaredModule source d).Holds source (ds ++ [d]) := by
  have htidy := h.tidy.addNode .module d.name d.name
  have hmod : ∀ id, ':' ∉ id → _ := fun id hid => h.isModule_addNode_iff d hid
  cases hr : d.runtime? source with
  | none =>
    have hadd : g.addDeclaredModule source d = g.addNode .module d.name d.name := by
      simp only [Graph.addDeclaredModule, hr]
    rw [hadd]
    refine ⟨htidy, fun id => ?_, fun e => ?_, hmod⟩
    · rw [hasNode_addNode, h.node_iff]
      simp [or_and_right, exists_or, hr]
    · rw [edges_addNode, h.edge_iff]
      simp [or_and_right, exists_or, hr]
  | some block =>
    have hadd : g.addDeclaredModule source d =
        ((g.addNode .module d.name d.name).addNode .runtime (nestedId d.name runtimeWord)
          runtimeWord).addEdge .structural d.name (nestedId d.name runtimeWord) := by
      simp only [Graph.addDeclaredModule, hr]
    have hnode := Grows.addNode htidy (by decide : NodeKind.runtime ≠ .module)
      (nestedId d.name runtimeWord) runtimeWord
    have hcolon : EdgeKind.structural = .structural ↔ ':' ∈ nestedId d.name runtimeWord := by
      simp [colon_mem_nestedId]
    have hedge := Grows.addEdge hnode.above.tidy
      ((hnode.node_iff d.name).mpr (Or.inl (hasNode_addNode.mpr (Or.inr rfl))))
      ((hnode.node_iff _).mpr (Or.inr rfl)) hcolon
    have hboth := hnode.trans hedge
    rw [hadd]
    refine ⟨hboth.above.tidy, fun id => ?_, fun e => ?_, fun id hid => ?_⟩
    · rw [hboth.node_iff, hasNode_addNode, h.node_iff]
      simp [or_and_right, exists_or, hr, or_assoc]
    · rw [hboth.edge_iff, edges_addNode, h.edge_iff]
      simp [or_and_right, exists_or, hr, ne_nestedId]
    · rw [hboth.above.isModule]
      exact hmod id hid

theorem holds_foldl (source : Text) (ds : List Declaration) :
    (ds.foldl (Graph.addDeclaredModule source) .empty).Holds source ds := by
  induction ds using List.reverseRecOn with
  | nil => exact holds_empty source
  | append_singleton ds d ih =>
    rw [List.foldl_append]
    exact ih.addDeclaredModule d

theorem mem_filter_kind {kind : Declaration.Kind} {d : Declaration} :
    (d ∈ source.declarations.filter fun d => d.kind == kind) ↔
      d ∈ source.declarations ∧ d.kind = kind := by
  rw [List.mem_filter, beq_iff_eq]

theorem Holds.knows (h : g.Holds source (source.declarations.filter fun d => d.kind == .module)) :
    g.Knows source := by
  refine ⟨fun {id} hid => ?_, fun {id} hid => ?_⟩
  · obtain ⟨d, hd, hkind, rfl⟩ := hid
    exact (h.node_iff _).mpr ⟨d, mem_filter_kind.mpr ⟨hd, hkind⟩, Or.inl rfl⟩
  · rw [h.isModule_iff id hid]
    simp only [mem_filter_kind, Text.Declares, and_assoc]

end PipelineDoc.Graph

namespace PipelineDoc

/-- **The dependency graph of a document** has the edges of its dependencies and the nodes that it
names, and each of them once. -/
theorem dependencies_exactly (source : Text) :
    (∀ e, e ∈ source.dependencies.edges ↔ Dependency source e) ∧
      (source.dependencies.edges.map fun e => (e.source, e.target)).Nodup ∧
      (∀ id, id ∈ source.dependencies.nodes.map (·.id) ↔ Named source id) ∧
      (source.dependencies.nodes.map (·.id)).Nodup := by
  have hbase := Graph.holds_foldl source (source.declarations.filter fun d => d.kind == .module)
  have hpipes := Graph.Grows.foldl hbase.tidy (f := Graph.addPipeline source) fun d
    (_ : d ∈ source.declarations.filter fun d => d.kind == .pipeline) g' hg' =>
      Graph.addPipeline_grows hg'.tidy (hbase.knows.above hg') d
  refine ⟨fun e => ?_, hpipes.above.tidy.nodup_ends, fun id => ?_, hpipes.above.tidy.nodup_ids⟩
  · refine (hpipes.edge_iff e).trans ?_
    simp only [hbase.edge_iff, Graph.mem_filter_kind]
    constructor
    · rintro (⟨d, ⟨hd, hkind⟩, hr, rfl⟩ | ⟨d, ⟨hd, hkind⟩, hflow, before, st, after, hst, hflows⟩)
      · exact .runtime hd hkind hr
      · rw [hflow]
        exact .flow hd hkind hst hflows
    · rintro (⟨hd, hkind, hr⟩ | ⟨hd, hkind, hst, hflows⟩)
      · exact Or.inl ⟨_, ⟨hd, hkind⟩, hr, rfl⟩
      · exact Or.inr ⟨_, ⟨hd, hkind⟩, rfl, _, _, _, hst, hflows⟩
  · refine List.mem_map.trans ((hpipes.node_iff id).trans ?_)
    simp only [hbase.node_iff, Graph.mem_filter_kind]
    constructor
    · rintro (⟨d, ⟨hd, hkind⟩, rfl | ⟨hr, rfl⟩⟩ | ⟨d, ⟨hd, hkind⟩, st, hst, hid⟩)
      · exact .module hd hkind
      · exact .runtime hd hkind hr
      · exact .statement hd hkind hst hid
    · rintro (⟨hd, hkind⟩ | ⟨hd, hkind, hr⟩ | ⟨hd, hkind, hst, hid⟩)
      · exact Or.inl ⟨_, ⟨hd, hkind⟩, Or.inl rfl⟩
      · exact Or.inl ⟨_, ⟨hd, hkind⟩, Or.inr ⟨hr, rfl⟩⟩
      · exact Or.inr ⟨_, ⟨hd, hkind⟩, _, hst, hid⟩

/-- A name that is bound again to a call of an unknown module no longer brings what it brought. -/
example : (Text.dependencies ("module \"a\" \x7b\x7d module \"b\" \x7b\x7d pipeline \"p\" \x7b " ++
    "let x = run a() run b(x) let x = run c() run a(x, input.f) \x7d").toList).edges =
      [.between ['a'] ['b'] .dataFlow, .between ['f'] ['a'] .dataFlow] := by
  decide +kernel

end PipelineDoc
