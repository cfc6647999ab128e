import PipelineDoc.Declaration
import PipelineDoc.Diagnostic

/-!
# Findings

A finding is the cause of a diagnostic of a document. `Finding.diagnostic` words it.
-/

namespace PipelineDoc

/-- The name of a kind of declaration: its keyword. -/
def Declaration.Kind.display (kind : Declaration.Kind) : String := String.ofList kind.keyword

/-- Something that is wrong with a document. -/
inductive Finding where
  /-- The numbers of opening and closing braces in code differ; `span` is the last line. -/
  | unbalanced (opened closed : Nat) (span : Span)
  /-- A declaration keyword has no quoted name. -/
  | unnamed (kind : Declaration.Kind) (span : Span)
  /-- A declaration repeats the kind and the name of an earlier one, the first of which is at
  `first`. -/
  | duplicate (kind : Declaration.Kind) (name : Text) (span first : Span)
  /-- A call names a module that is neither declared nor built in. -/
  | unknownModule (name : Text) (span : Span)
  /-- An argument refers to a name that is not bound. -/
  | unknownVariable (name pipeline : Text) (span : Span)
  deriving DecidableEq, Repr

namespace Finding

/-- Where a finding is reported. -/
def span : Finding → Span
  | .unbalanced _ _ span => span
  | .unnamed _ span => span
  | .duplicate _ _ span _ => span
  | .unknownModule _ span => span
  | .unknownVariable _ _ span => span

/-- The code of a finding. -/
def code : Finding → Code
  | .unbalanced .. => .unbalancedBraces
  | .unnamed .. => .missingName
  | .duplicate .. => .duplicate
  | .unknownModule .. => .unknownModule
  | .unknownVariable .. => .unknownVariable

/-- A repeated declaration is a warning; all else is an error. -/
def severity : Finding → Severity
  | .duplicate .. => .warning
  | _ => .error

/-- The message of a finding. -/
def message : Finding → String
  | .unbalanced opened closed _ =>
    if opened > closed then
      "unbalanced braces: " ++ toString (opened - closed) ++ " `\x7b` never closed"
    else "unbalanced braces: " ++ toString (closed - opened) ++ " unmatched `\x7d`"
  | .unnamed kind _ => "`" ++ kind.display ++ "` must be followed by a quoted name"
  | .duplicate kind name _ _ =>
    kind.display ++ " `" ++ String.ofList name ++ "` is declared more than once"
  | .unknownModule name _ => "undefined module `" ++ String.ofList name ++ "`"
  | .unknownVariable name _ _ => "undefined variable `" ++ String.ofList name ++ "`"

/-- The remarks of a finding, the one at its own span first. -/
def annotations : Finding → List Annotation
  | .unbalanced _ _ span => [⟨span, "document ends here", true⟩]
  | .unnamed _ span => [⟨span, "expected a name in double quotes after this", true⟩]
  | .duplicate _ _ span first =>
    [⟨span, "duplicate declaration", true⟩, ⟨first, "first declared here", false⟩]
  | .unknownModule _ span => [⟨span, "not declared in this document", true⟩]
  | .unknownVariable _ pipeline span =>
    [⟨span, "not bound in pipeline `" ++ String.ofList pipeline ++ "`", true⟩]

/-- How to mend a finding. -/
def help : Finding → String
  | .unbalanced opened closed _ =>
    "found " ++ toString opened ++ " `\x7b` and " ++ toString closed ++
      " `\x7d` outside strings and comments"
  | .unnamed kind _ => "write `" ++ kind.display ++ " \"name\" \x7b ... \x7d`"
  | .duplicate .. => "the last declaration wins"
  | .unknownModule name _ =>
    "declare it with `module \"" ++ String.ofList name ++
      "\" \x7b ... \x7d` or call a built-in module"
  | .unknownVariable name _ _ =>
    "bind it first with `let " ++ String.ofList name ++
      " = run <module>(...)`, or read it from `input." ++ String.ofList name ++ "`"

/-- The diagnostic of a finding. -/
def diagnostic (f : Finding) : Diagnostic :=
  ⟨f.severity, some f.code, f.message, f.annotations, some f.help⟩

@[simp] theorem span?_diagnostic (f : Finding) : f.diagnostic.span? = some f.span := by
  cases f <;> rfl

@[simp] theorem isError_diagnostic (f : Finding) :
    f.diagnostic.isError = (f.severity == .error) := rfl

end Finding

end PipelineDoc
