import PipelineDoc.Graph.Basic
import PipelineDoc.Review

/-!
# The dependency graph of a document

All modules come first, each with its runtime block, so that pipelines may call modules that are
declared after them. Then the statements of the pipelines are followed in order. Data flows into a
called module from the input fields that its arguments name and from the modules whose results are
bound to the names in its arguments; an arrow says directly what flows where.
-/

namespace PipelineDoc

/-- The modules whose results are bound to names; the latest binding of a name is in force. -/
abbrev Results := List (Text × Text)

namespace Results

/-- The module whose result a name is bound to. -/
def producer? (results : Results) (name : Text) : Option Text := results.lookup name

/-- Binds a name to the result of a module, or of none that is known. -/
def bind (results : Results) (name : Text) (module : Option Text) : Results :=
  let others := results.filter fun (bound, _) => bound != name
  match module with
  | some m => (name, m) :: others
  | none => others

end Results

namespace Graph

/-- Adds a declared module and its runtime block. -/
def addDeclaredModule (source : Text) (g : Graph) (d : Declaration) : Graph :=
  let g := g.addNode .module d.name d.name
  match d.runtime? source with
  | some _ =>
    let part := nestedId d.name runtimeWord
    (g.addNode .runtime part runtimeWord).addEdge .structural d.name part
  | none => g

/-- Adds a field of the pipeline input. -/
def addInput (g : Graph) (field : Text) : Graph := g.addNode .input field field

/-- Adds what flows into a call by one reference in its arguments. `module` is the called module, if
it is declared; an input field is added in any case. -/
def addReference (results : Results) (module : Option Text) (g : Graph) (r : Reference) : Graph :=
  let (g, origin) :=
    if r.root = inputWord then
      match r.field? with
      | some field => (g.addInput field, some field)
      | none => (g, none)
    else (g, results.producer? r.root)
  match origin, module with
  | some origin, some module => g.addEdge .dataFlow origin module
  | _, _ => g

/-- The called module, if it is declared. -/
def calledModule? (g : Graph) (call : Call) : Option Text :=
  if g.isModule call.module then some call.module else none

/-- The references in the arguments of a call of a pipeline body. -/
def callReferences (body : Text) (call : Call) : List Reference :=
  match call.args with
  | some args => (body.slice args).references
  | none => []

/-- Adds a call of a pipeline body. -/
def addCall (body : Text) (state : Graph × Results) (call : Call) : Graph × Results :=
  let (g, results) := state
  let module := g.calledModule? call
  let g := (callReferences body call).foldl (addReference results module) g
  match call.binding with
  | some binding => (g, results.bind binding.name module)
  | none => (g, results)

/-- The id of an end of an arrow: a path below `input` names an input field. -/
def endpointId (path : Text) : Text := (path.skip? (inputWord ++ ['.'])).getD path

/-- Adds an end of an arrow. -/
def addEndpoint (g : Graph) (path : Text) : Graph :=
  match path.skip? (inputWord ++ ['.']) with
  | some field => g.addInput field
  | none => g.addNode .inferred path path

/-- Adds one arrow. -/
def addLink (g : Graph) (link : Text × Text) : Graph :=
  ((g.addEndpoint link.1).addEndpoint link.2).addEdge .dataFlow (endpointId link.1)
    (endpointId link.2)

/-- Adds a statement of a pipeline body. -/
def addStatement (body : Text) (state : Graph × Results) : Statement → Graph × Results
  | .call call => addCall body state call
  | .arrow chain => (chain.links.foldl addLink state.1, state.2)

/-- Adds a pipeline, whose bindings are its own. -/
def addPipeline (source : Text) (g : Graph) (d : Declaration) : Graph :=
  let body := d.content source
  (body.statements.foldl (addStatement body) (g, [])).1

end Graph

/-- **The dependency graph of a document**, not laid out. -/
def Text.dependencies (source : Text) : Graph :=
  let modules := source.declarations.filter fun d => d.kind == .module
  let pipelines := source.declarations.filter fun d => d.kind == .pipeline
  pipelines.foldl (Graph.addPipeline source) (modules.foldl (Graph.addDeclaredModule source) .empty)

end PipelineDoc
