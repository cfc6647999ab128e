import PipelineDoc.Graph.Dependencies
import PipelineDoc.Proofs.Graph.Growth
import PipelineDoc.Proofs.Statement.Places

/-!
# What flows where

The dependencies of a document, said without the graph. A module has its runtime block as a part.
Data flows into a call of a declared module from the input fields that its arguments name and from
the modules whose results they name; the result that a name stands for is that of the *latest* call
before that binds the name. Data flows along every arrow. `Dependency` says this of a document, and
`Named` says which ids it names. The lemmas tie the words of the specification to what the graph is
built with: the table of results, and the ids of endpoints.
-/

namespace PipelineDoc

/-! ### Dependencies -/

/-- A document declares a module with a name. -/
def Text.Declares (source name : Text) : Prop :=
  ∃ d ∈ source.declarations, d.kind = .module ∧ d.name = name

/-- A call binds its result to a name. -/
def Call.Binds (c : Call) (name : Text) : Prop := ∃ b, c.binding = some b ∧ b.name = name

/-- Among statements, the call `c` is the latest that binds a name. -/
def Latest (sts : List Statement) (name : Text) (c : Call) : Prop :=
  ∃ older newer, sts = older ++ .call c :: newer ∧ c.Binds name ∧
    ∀ c', .call c' ∈ newer → ¬ c'.Binds name

/-- An end of an arrow stands for a node: the one after a leading `input.`, or else the one that it
names itself. -/
def StandsFor (path id : Text) : Prop :=
  path = inputWord ++ '.' :: id ∨ id = path ∧ ¬ ∃ field, path = inputWord ++ '.' :: field

/-- The reference `r` stands in the closed arguments of a call of a body. -/
def Call.RefersBy (c : Call) (body : Text) (r : Reference) : Prop :=
  ∃ args, c.args = some args ∧ r ∈ (body.slice args).references

/-- Data flows by a statement of a body that comes after the statements `before`. -/
inductive Statement.Flows (source body : Text) (before : List Statement) :
    Statement → Text → Text → Prop
  | input {c : Call} {r : Reference} {field : Text} (hc : source.Declares c.module)
      (hr : c.RefersBy body r) (hroot : r.root = inputWord) (hfield : r.field? = some field)
      (hne : field ≠ c.module) : Flows source body before (.call c) field c.module
  | result {c b : Call} {r : Reference} (hc : source.Declares c.module) (hr : c.RefersBy body r)
      (hroot : r.root ≠ inputWord) (hb : Latest before r.root b) (hdecl : source.Declares b.module)
      (hne : b.module ≠ c.module) : Flows source body before (.call c) b.module c.module
  | arrow {chain : Chain} {x y s t : Text} (hlink : (x, y) ∈ chain.links) (hs : StandsFor x s)
      (ht : StandsFor y t) (hne : s ≠ t) : Flows source body before (.arrow chain) s t

/-- Data flows along an edge, and the edge has the id that its ends give. -/
def Edge.IsFlow (e : Edge) : Prop := e = .between e.source e.target .dataFlow

/-- A document makes an edge. -/
inductive Dependency (source : Text) : Edge → Prop
  | runtime {d : Declaration} (hd : d ∈ source.declarations) (hkind : d.kind = .module)
      (hr : (d.runtime? source).isSome) :
      Dependency source (.between d.name (nestedId d.name runtimeWord) .structural)
  | flow {d : Declaration} {before after : List Statement} {st : Statement} {s t : Text}
      (hd : d ∈ source.declarations) (hkind : d.kind = .pipeline)
      (hst : (d.content source).statements = before ++ st :: after)
      (hflow : st.Flows source (d.content source) before s t) :
      Dependency source (.between s t .dataFlow)

/-- A statement of a body names a node: an input field in its arguments, whether or not the called
module is declared, or an end of its arrows. -/
inductive Statement.Names (body : Text) : Statement → Text → Prop
  | input {c : Call} {r : Reference} {field : Text} (hr : c.RefersBy body r)
      (hroot : r.root = inputWord) (hfield : r.field? = some field) :
      Names body (.call c) field
  | arrow {chain : Chain} {e : Text × Span} {id : Text} (he : e ∈ chain.endpoints)
      (hid : StandsFor e.1 id) : Names body (.arrow chain) id

/-- A document makes a node. -/
inductive Named (source : Text) : Text → Prop
  | module {d : Declaration} (hd : d ∈ source.declarations) (hkind : d.kind = .module) :
      Named source d.name
  | runtime {d : Declaration} (hd : d ∈ source.declarations) (hkind : d.kind = .module)
      (hr : (d.runtime? source).isSome) : Named source (nestedId d.name runtimeWord)
  | statement {d : Declaration} {st : Statement} {id : Text} (hd : d ∈ source.declarations)
      (hkind : d.kind = .pipeline) (hst : st ∈ (d.content source).statements)
      (hid : st.Names (d.content source) id) : Named source id

/-! ### Ids -/

theorem IsDottedPath.not_mem_colon {t : Text} (h : IsDottedPath t) : ':' ∉ t := by
  intro hmem
  rcases h.isWordChar_or_dot ':' hmem with hc | hc
  · exact absurd hc (by decide)
  · exact absurd hc (by decide)

theorem colon_mem_nestedId (id part : Text) : ':' ∈ nestedId id part := by
  simp [nestedId]

theorem ne_nestedId (id part : Text) : id ≠ nestedId id part := by
  intro h
  have := congrArg List.length h
  simp only [nestedId, List.length_append, List.length_cons] at this
  omega

theorem standsFor_iff {path id : Text} : StandsFor path id ↔ Graph.endpointId path = id := by
  have hskip : ∀ field, path.skip? (inputWord ++ ['.']) = some field ↔
      path = inputWord ++ '.' :: field := by
    intro field
    rw [Text.skip?_eq_some_iff, List.append_assoc, List.singleton_append]
  unfold StandsFor Graph.endpointId
  cases h : path.skip? (inputWord ++ ['.']) with
  | some field =>
    have hpath := (hskip field).mp h
    rw [Option.getD_some]
    constructor
    · rintro (hid | ⟨-, hno⟩)
      · rw [hpath] at hid
        simpa using hid
      · exact absurd ⟨field, hpath⟩ hno
    · rintro rfl
      exact Or.inl hpath
  | none =>
    have hno : ¬ ∃ field, path = inputWord ++ '.' :: field := by
      rintro ⟨field, hfield⟩
      rw [(hskip field).mpr hfield] at h
      cases h
    rw [Option.getD_none]
    constructor
    · rintro (hid | ⟨rfl, -⟩)
      · exact absurd ⟨id, hid⟩ hno
      · rfl
    · rintro rfl
      exact Or.inr ⟨rfl, hno⟩

theorem IsDottedPath.not_mem_colon_endpointId {path : Text} (h : IsDottedPath path) :
    ':' ∉ Graph.endpointId path := by
  have hpath := h.not_mem_colon
  rcases standsFor_iff.mpr (rfl : Graph.endpointId path = _) with heq | ⟨heq, -⟩
  · rw [heq] at hpath
    intro hmem
    exact hpath (List.mem_append_right _ (List.mem_cons_of_mem _ hmem))
  · rwa [heq]

/-! ### The latest binding -/

theorem latest_concat {sts : List Statement} {st : Statement} {name : Text} {b : Call} :
    Latest (sts ++ [st]) name b ↔
      (st = .call b ∧ b.Binds name) ∨ (∀ c, st = .call c → ¬ c.Binds name) ∧ Latest sts name b := by
  constructor
  · rintro ⟨older, newer, hsplit, hb, hnewer⟩
    rcases List.eq_nil_or_concat' newer with rfl | ⟨front, last, rfl⟩
    · obtain ⟨-, h⟩ := List.append_inj' hsplit rfl
      exact Or.inl ⟨by simpa using h, hb⟩
    · rw [← List.cons_append, ← List.append_assoc] at hsplit
      obtain ⟨hsts, h⟩ := List.append_inj' hsplit rfl
      obtain rfl : st = last := by simpa using h
      refine Or.inr ⟨fun c hc => hnewer c (by simp [hc]), older, front, hsts, hb, fun c hc => ?_⟩
      exact hnewer c (List.mem_append_left _ hc)
  · rintro (⟨rfl, hb⟩ | ⟨hst, older, newer, rfl, hb, hnewer⟩)
    · exact ⟨sts, [], rfl, hb, by simp⟩
    · refine ⟨older, newer ++ [st], by simp, hb, fun c hc => ?_⟩
      rcases List.mem_append.mp hc with hc | hc
      · exact hnewer c hc
      · exact hst c (List.mem_singleton.mp hc).symm

theorem lookup_filter_ne (results : Results) (name v : Text) :
    (results.filter fun (bound, _) => bound != name).lookup v =
      if v = name then none else results.lookup v := by
  induction results with
  | nil => simp
  | cons r results ih =>
    obtain ⟨bound, m⟩ := r
    by_cases hbound : bound = name
    · subst hbound
      rw [List.filter_cons_of_neg (by simp), ih]
      by_cases hv : v = bound
      · rw [if_pos hv, if_pos hv]
      · rw [if_neg hv, if_neg hv, List.lookup_cons, beq_false_of_ne hv]
    · rw [List.filter_cons_of_pos (by simpa using hbound), List.lookup_cons, ih, List.lookup_cons]
      by_cases hv : v = bound
      · subst hv
        simp [hbound]
      · rw [beq_false_of_ne hv]

theorem Results.producer?_bind (results : Results) (name : Text) (module : Option Text) (v : Text) :
    (results.bind name module).producer? v = if v = name then module else results.producer? v := by
  have hothers := lookup_filter_ne results name v
  cases module with
  | none => exact hothers
  | some m =>
    rw [producer?, Results.bind, List.lookup_cons, hothers]
    by_cases hv : v = name
    · simp [hv]
    · rw [beq_false_of_ne hv, if_neg hv, producer?, if_neg hv]

end PipelineDoc
