import PipelineDoc.Graph.Dependencies
import PipelineDoc.Settings.Basic

/-!
# Analysis of a document

An analysis under given settings reviews a document and lays out its dependency graph, with the
module that a hint names active. The graph does not depend on what the review finds.
-/

namespace PipelineDoc

/-- What an analysis tells about a document. -/
structure Analysis where
  diagnostics : List Diagnostic
  markers : List Marker
  graph : Graph

/-- Whether an analysis has found an error. -/
def Analysis.hasErrors (a : Analysis) : Bool := a.diagnostics.any Diagnostic.isError

namespace Settings

/-- All diagnostics of a document, by place. -/
def diagnose (settings : Settings) (source : Text) : List Diagnostic :=
  source.diagnose settings.builtinModules

/-- The warnings of a document without errors, or else all its diagnostics. -/
def check (settings : Settings) (source : Text) : Except (List Diagnostic) (List Diagnostic) :=
  source.check settings.builtinModules

/-- The dependency graph of a document, laid out, with the hinted module active. -/
def graph (settings : Settings) (source : Text) (active : Option Text) : Graph :=
  let g := settings.layout.apply source.dependencies
  match active with
  | some id => g.setActive id
  | none => g

/-- **Analyses a document.** -/
def analyze (settings : Settings) (source : Text) (active : Option Text) : Analysis :=
  let diagnostics := settings.diagnose source
  { diagnostics
    markers := diagnostics.map fun d => d.marker source
    graph := settings.graph source active }

end Settings

end PipelineDoc
