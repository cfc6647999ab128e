import PipelineDoc.Graph.Layout
import PipelineDoc.Value

/-!
# Settings

Settings have a section `analysis`, which names further modules that need no declaration, and a
section `layout`. Settings and sections are records and the engine of a layout is a choice, as their
format writes them. A section or a field that is left out has its default, and a field that has no
meaning is passed over.
-/

namespace PipelineDoc

/-- What a review and a layout can be told. -/
structure Settings where
  /-- Modules that need no declaration, besides the standard ones. -/
  builtinModules : List Text := []
  layout : Layout := {}
  deriving DecidableEq, Repr

namespace Layout

/-- Reads an engine. -/
def engine? (f : Value.Format) (v : Value) : Option Engine :=
  (f.choice? v).bind fun t => Engine.ofDisplay? (String.ofList t)

/-- Reads the section `layout`. -/
def ofValue? (f : Value.Format) (v : Value) : Option Layout := do
  let fields ← f.fields? ["engine", "passes", "rank_spacing", "order_spacing", "margin"] v
  let standard : Layout := {}
  let engine ← Value.field? fields "engine" standard.engine (engine? f)
  let passes ← Value.field? fields "passes" standard.passes (Value.optional? Value.count?)
  let rankSpacing ← Value.field? fields "rank_spacing" standard.rankSpacing Value.int32?
  let orderSpacing ← Value.field? fields "order_spacing" standard.orderSpacing Value.int32?
  let margin ← Value.field? fields "margin" standard.margin Value.int32?
  return { engine, passes, rankSpacing, orderSpacing, margin }

end Layout

namespace Settings

/-- Reads the section `analysis`. -/
def builtins? (f : Value.Format) (v : Value) : Option (List Text) := do
  let fields ← f.fields? ["builtin_modules"] v
  Value.field? fields "builtin_modules" [] Value.texts?

/-- **Reads settings**; none when a field is not of its type. -/
def ofValue? (f : Value.Format) (v : Value) : Option Settings := do
  let fields ← f.fields? ["analysis", "layout"] v
  let builtinModules ← Value.field? fields "analysis" [] (builtins? f)
  let layout ← Value.field? fields "layout" {} (Layout.ofValue? f)
  return { builtinModules, layout }

end Settings

end PipelineDoc
