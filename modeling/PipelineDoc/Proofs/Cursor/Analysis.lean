import PipelineDoc.Analysis
import PipelineDoc.Proofs.Cursor.Layout
import PipelineDoc.Proofs.Cursor.Positions
import PipelineDoc.Proofs.Cursor.Review

/-!
# The analysis by offsets

The dependency graph follows the declarations and statements that were read by offsets; with the
review, the markers and the layout this makes the whole analysis a reading by offsets. It never
meets a fault, and gives what the library gives (`reads_without_fault`).
-/

namespace PipelineDoc.Cursor

/-! ### The dependency graph -/

/-- Adds a declared module and its runtime block. -/
def addDeclaredModule (source : Text) (g : Graph) (d : Declaration) : Read Graph := do
  let g := g.addNode .module d.name d.name
  match ← runtime? source d with
  | some _ =>
    let part := nestedId d.name runtimeWord
    return (g.addNode .runtime part runtimeWord).addEdge .structural d.name part
  | none => return g

/-- The references in the arguments of a call of a pipeline body. -/
def callReferences (body : Text) (call : Call) : Read (List Reference) :=
  match call.args with
  | some args => do references (← cut body args.start args.stop)
  | none => return []

/-- Adds a call of a pipeline body. -/
def addCall (body : Text) (state : Graph × Results) (call : Call) : Read (Graph × Results) := do
  let (g, results) := state
  let module := g.calledModule? call
  let g := (← callReferences body call).foldl (Graph.addReference results module) g
  match call.binding with
  | some binding => return (g, results.bind binding.name module)
  | none => return (g, results)

/-- The pairs of consecutive items, as lists. -/
def windows {α : Type} : List α → List (List α)
  | a :: b :: rest => [a, b] :: windows (b :: rest)
  | _ => []

/-- The pairs of consecutive endpoints of a chain. -/
def links (chain : Chain) : Read (List (Text × Text)) :=
  (windows chain.endpoints).mapM fun pair => do
    let (source, _) ← fetch pair 0
    let (target, _) ← fetch pair 1
    return (source, target)

/-- Adds a statement of a pipeline body. -/
def addStatement (body : Text) (state : Graph × Results) : Statement → Read (Graph × Results)
  | .call call => addCall body state call
  | .arrow chain => do return ((← links chain).foldl Graph.addLink state.1, state.2)

/-- Adds a pipeline. -/
def addPipeline (source : Text) (g : Graph) (d : Declaration) : Read Graph := do
  let body ← content source d
  let (g, _) ← (← statements body).foldlM (addStatement body) (g, [])
  return g

/-- The dependency graph of a document, not laid out. -/
def dependencies (source : Text) : Read Graph := do
  let declarations := (← headers source).filterMap Header.declaration?
  let g ← (declarations.filter fun d => d.kind == .module).foldlM (addDeclaredModule source) .empty
  (declarations.filter fun d => d.kind == .pipeline).foldlM (addPipeline source) g

theorem addDeclaredModule_eq {source : Text} {d : Declaration} (hd : d ∈ source.declarations)
    (g : Graph) : addDeclaredModule source g d = .ok (g.addDeclaredModule source d) := by
  rw [addDeclaredModule, runtime?_eq hd, ok_bind, Graph.addDeclaredModule]
  cases d.runtime? source <;> rfl

theorem callReferences_eq {body : Text} {call : Call} (h : call.StandsIn body) :
    callReferences body call = .ok (Graph.callReferences body call) := by
  rw [callReferences, Graph.callReferences]
  cases hargs : call.args with
  | none => rfl
  | some args =>
    simp only
    rw [cut_of_slice? (h.args args hargs), ok_bind, references_eq]

theorem addCall_eq {body : Text} {call : Call} (h : call.StandsIn body) (state : Graph × Results) :
    addCall body state call = .ok (Graph.addCall body state call) := by
  rw [addCall, callReferences_eq h, Graph.addCall]
  cases call.binding <;> rfl

theorem mapM_windows (endpoints : List (Text × Span)) :
    ((windows endpoints).mapM fun pair => do
      let (source, _) ← fetch pair 0
      let (target, _) ← fetch pair 1
      return (source, target) : Read (List (Text × Text))) =
      .ok ((endpoints.map fun e => e.1).zip (endpoints.map fun e => e.1).tail) := by
  induction endpoints with
  | nil => rfl
  | cons a endpoints ih =>
    cases endpoints with
    | nil => rfl
    | cons b endpoints =>
      rw [windows, List.mapM_cons, ih]
      rfl

theorem addStatement_eq {body : Text} {st : Statement} (h : st ∈ body.statements)
    (state : Graph × Results) :
    addStatement body state st = .ok (Graph.addStatement body state st) := by
  cases st with
  | call call => exact addCall_eq (standsIn_of_mem_statements h) state
  | arrow chain =>
    rw [addStatement, links, mapM_windows]
    rfl

theorem addPipeline_eq {source : Text} {d : Declaration} (hd : d ∈ source.declarations) (g : Graph) :
    addPipeline source g d = .ok (g.addPipeline source d) := by
  have hstatements : (d.content source).statements.foldlM (addStatement (d.content source)) (g, []) =
      .ok ((d.content source).statements.foldl (Graph.addStatement (d.content source)) (g, [])) :=
    foldlM_eq (fun state st hst => addStatement_eq hst state) _
  rw [addPipeline, content_eq hd, ok_bind, statements_eq, ok_bind, hstatements]
  rfl

theorem dependencies_eq (source : Text) : dependencies source = .ok source.dependencies := by
  have hmodules : (source.declarations.filter fun d => d.kind == .module).foldlM
      (addDeclaredModule source) .empty = .ok ((source.declarations.filter
        fun d => d.kind == .module).foldl (Graph.addDeclaredModule source) .empty) :=
    foldlM_eq (fun g d hd => addDeclaredModule_eq (List.mem_filter.mp hd).1 g) _
  rw [dependencies, headers_eq, ok_bind]
  refine (congrArg (· >>= _) hmodules).trans ?_
  exact foldlM_eq (fun g d hd => addPipeline_eq (List.mem_filter.mp hd).1 g) _

/-! ### The analysis -/

/-- The dependency graph of a document, laid out, with the hinted module active. -/
def graph (sort : Nat → List (Nat × Nat) → Option (List Nat)) (settings : Settings) (source : Text)
    (active : Option Text) : Read Graph := do
  let g ← apply sort settings.layout (← dependencies source)
  match active with
  | some id => return g.setActive id
  | none => return g

/-- Analyses a document. -/
def analyze (sort : Nat → List (Nat × Nat) → Option (List Nat)) (settings : Settings) (source : Text)
    (active : Option Text) : Read Analysis := do
  let diagnostics ← diagnose source settings.builtinModules
  let markers ← diagnostics.mapM (marker source)
  let graph ← graph sort settings source active
  return { diagnostics, markers, graph }

section

variable {sort : Nat → List (Nat × Nat) → Option (List Nat)} (hsort : Rank.IsSorter sort)
include hsort

theorem graph_eq (settings : Settings) (source : Text) (active : Option Text) :
    graph sort settings source active = .ok (settings.graph source active) := by
  rw [graph, dependencies_eq, ok_bind, apply_eq hsort, ok_bind]
  cases active <;> rfl

theorem analyze_eq (settings : Settings) (source : Text) (active : Option Text) :
    analyze sort settings source active = .ok (settings.analyze source active) := by
  rw [analyze, diagnose_eq, ok_bind, mapM_eq fun d _ => marker_eq source d, ok_bind,
    graph_eq hsort]
  rfl

/-- **No fault is ever met**: for all settings, every document and every hint the analysis, the
strict review and the graph can be read by offsets, and are what the library says. Whatever
topological sort the layout is given, every index is in bounds, every cut is at boundaries of its
text, no subtraction goes below zero and every loop ends. -/
theorem reads_without_fault (settings : Settings) (source : Text) (active : Option Text) :
    analyze sort settings source active = .ok (settings.analyze source active) ∧
      check source settings.builtinModules = .ok (settings.check source) ∧
      graph sort settings source active = .ok (settings.graph source active) :=
  ⟨analyze_eq hsort settings source active, check_eq source settings.builtinModules,
    graph_eq hsort settings source active⟩

end

/-- A document of characters of one to four bytes, with a call that no parenthesis closes, laid out
along the order of a sort. -/
theorem reads_without_fault_wide :
    let source : Text := ("module \"é\" \x7b\x7d module \"𝐱\" \x7b\x7d " ++
      "pipeline \"→\" \x7b let 𝐲 = run 𝐱(ü.𝐱) run é(𝐲) input.ü -> 𝐱 run é( \x7d").toList
    let settings : Settings := { layout := { engine := .longestPath } }
    let g := source.dependencies
    g.edgeIndices = [(1, 0), (2, 1)] ∧ Rank.layerSort g.nodes.length g.edgeIndices = some [2, 1, 0] ∧
      Rank.IsSorter Rank.layerSort ∧
      analyze Rank.layerSort settings source (some ['é']) =
        .ok (settings.analyze source (some ['é'])) ∧
      check source [] = .ok (settings.check source) ∧
      graph Rank.layerSort settings source (some ['é']) =
        .ok (settings.graph source (some ['é'])) := by
  intro source settings g
  exact ⟨by decide +kernel, by decide +kernel, Rank.isSorter_layerSort,
    reads_without_fault Rank.isSorter_layerSort settings source (some ['é'])⟩

end PipelineDoc.Cursor
