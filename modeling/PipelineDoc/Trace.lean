import PipelineDoc.Value

/-!
# Traces of runs

A simulator, which is not part of this library, tells the steps of a run as a trace in JSON. While a
step is shown, its module is the one to make active in the graph.
-/

namespace PipelineDoc

/-- One step of a run. -/
structure TraceStep where
  module : Text
  message : Text
  /-- The data at this step, if they are told. -/
  preview : Option Text
  deriving DecidableEq, Repr

/-- The steps of a run and its output. -/
structure Trace where
  steps : List TraceStep
  output : Text
  deriving DecidableEq, Repr

/-- Reads a step. -/
def TraceStep.ofValue? (v : Value) : Option TraceStep := do
  let fields ← Value.Format.json.fields? ["module", "message", "dataPreview"] v
  let module ← Value.required? fields "module" Value.text?
  let message ← Value.required? fields "message" Value.text?
  let preview ← Value.field? fields "dataPreview" none (Value.optional? Value.text?)
  return { module, message, preview }

/-- A step as a value. -/
def TraceStep.toValue (s : TraceStep) : Value :=
  .record
    ([("module", .text s.module), ("message", .text s.message)] ++
      match s.preview with
      | some preview => [("dataPreview", .text preview)]
      | none => [])

namespace Trace

/-- Reads the steps of a trace. -/
def steps? : Value → Option (List TraceStep)
  | .list items => items.mapM TraceStep.ofValue?
  | _ => none

/-- Reads a trace; fields without a meaning are passed over. -/
def ofValue? (v : Value) : Option Trace := do
  let fields ← Value.Format.json.fields? ["steps", "output"] v
  let steps ← Value.required? fields "steps" steps?
  let output ← Value.required? fields "output" Value.text?
  return { steps, output }

/-- A trace as a value. -/
def toValue (t : Trace) : Value :=
  .record [("steps", .list (t.steps.map TraceStep.toValue)), ("output", .text t.output)]

/-- The module to make active while a step is shown; none past the last step. -/
def activeModule? (t : Trace) (step : Nat) : Option Text := (t.steps[step]?).map (·.module)

end Trace

end PipelineDoc
