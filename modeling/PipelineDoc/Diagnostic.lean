import PipelineDoc.Position

/-!
# Diagnostics

A diagnostic is a message about a document, of a severity and perhaps with a code, which points to
places by *annotations*. The first primary annotation is where the message stands; the others say
more. A *marker* is a diagnostic placed for an editor.
-/

namespace PipelineDoc

/-- How grave a diagnostic is. -/
inductive Severity where
  | error
  | warning
  deriving DecidableEq, Repr

/-- The written form of a severity. -/
def Severity.display : Severity → String
  | .error => "error"
  | .warning => "warning"

/-- What a coded diagnostic is about. -/
inductive Code where
  | unbalancedBraces
  | missingName
  | unknownModule
  | unknownVariable
  | duplicate
  deriving DecidableEq, Repr

namespace Code

/-- The written form of a code. -/
def display : Code → String
  | .unbalancedBraces => "E100"
  | .missingName => "E101"
  | .unknownModule => "E200"
  | .unknownVariable => "E201"
  | .duplicate => "E202"

/-- What a code stands for, in words. -/
def description : Code → String
  | .unbalancedBraces => "unbalanced braces"
  | .missingName => "missing quoted name"
  | .unknownModule => "undefined module"
  | .unknownVariable => "undefined variable"
  | .duplicate => "duplicate declaration"

/-- All codes. -/
def all : List Code :=
  [.unbalancedBraces, .missingName, .unknownModule, .unknownVariable, .duplicate]

/-- The code of a written form. -/
def ofDisplay? (s : String) : Option Code := all.find? fun c => c.display == s

end Code

/-- A remark on a place of a document. -/
structure Annotation where
  span : Span
  message : String
  primary : Bool
  deriving DecidableEq, Repr

/-- A message about a document. -/
structure Diagnostic where
  severity : Severity
  code : Option Code
  message : String
  annotations : List Annotation
  help : Option String
  deriving DecidableEq, Repr

namespace Diagnostic

/-- Whether a diagnostic is an error. -/
def isError (d : Diagnostic) : Bool := d.severity == .error

/-- The place of a diagnostic: that of its first primary annotation. -/
def span? (d : Diagnostic) : Option Span := (d.annotations.find? (·.primary)).map (·.span)

/-- The written form: severity, code in brackets, and message. -/
def display (d : Diagnostic) : String :=
  let code := match d.code with
    | some code => "[" ++ code.display ++ "]"
    | none => ""
  d.severity.display ++ code ++ ": " ++ d.message

/-- The number of errors in a list of diagnostics. -/
def errorCount (ds : List Diagnostic) : Nat := ds.countP isError

/-- The written form of a list of diagnostics: the first, and how many more there are. -/
def summary : List Diagnostic → String
  | [] => ""
  | [d] => d.display
  | d :: more => d.display ++ " (+" ++ toString more.length ++ " more)"

end Diagnostic

/-- A diagnostic placed for an editor. -/
structure Marker where
  start : Position
  stop : Position
  message : String
  severity : Severity
  code : Option Code
  deriving DecidableEq, Repr

/-- Places a diagnostic of a document; one without a primary annotation stands at the start. -/
def Diagnostic.marker (d : Diagnostic) (source : Text) : Marker :=
  let (start, stop) := source.range (d.span?.getD (.ofLength 0 0))
  ⟨start, stop, d.message, d.severity, d.code⟩

end PipelineDoc
