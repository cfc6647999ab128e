import PipelineDoc.Finding
import PipelineDoc.Reference
import PipelineDoc.Statement

/-!
# Review of a document

A review goes over a document in five passes: the balance of its braces, the names and the repeats
of its declarations, and then, pipeline by pipeline and line by line, the modules that calls name
and the names that their arguments refer to. A binding is in force from its own line on. What it
finds is sorted by place.
-/

namespace PipelineDoc

/-! ### Names in force -/

/-- The modules that need no declaration. -/
def standardModules : List Text :=
  ["io.write_file", "io.write_output", "io.read_logs", "io.read_fs", "io.write_fs"].map
    String.toList

/-- The modules that a document may call: the standard ones, the `extra` ones, and its own. -/
def Text.knownModules (source : Text) (extra : List Text) : List Text :=
  standardModules ++ extra ++
    (source.declarations.filter fun d => d.kind == .module).map fun d => d.name

/-- `input`, the name that every pipeline can read. -/
def inputWord : Text := ['i', 'n', 'p', 'u', 't']

/-- The names bound so far in a pipeline. -/
abbrev Scope := List Text

namespace Scope

/-- The scope of a pipeline before its first line. -/
def initial : Scope := [inputWord]

/-- The scope with one more name. -/
def bind (scope : Scope) (name : Text) : Scope := name :: scope

/-- Whether a name is bound. -/
def binds (scope : Scope) (name : Text) : Bool := scope.contains name

end Scope

/-! ### The document as a whole -/

/-- The last line that holds more than white space, without its indentation. -/
def Text.lastLineSpan (source : Text) : Span :=
  let trimmed := source.trimEnd
  let line : Text := (trimmed.reverse.takeWhile (· != '\n')).reverse
  let shown := line.trimStart
  .ofLength (trimmed.byteLength - shown.byteLength) shown.byteLength

/-- Whether the braces of a document balance in number. -/
def braceFindings (source : Text) : List Finding :=
  let (opened, closed) := source.codeBraces
  if opened = closed then [] else [.unbalanced opened closed source.lastLineSpan]

/-- The keywords without a quoted name. -/
def nameFindings (source : Text) : List Finding :=
  source.rejections.filterMap fun r =>
    if r.reason = .missingName then some (.unnamed r.kind r.keywordSpan) else none

/-- The repeats among declarations that come after the declarations `seen`. -/
def duplicatesAfter (seen : List Declaration) : List Declaration → List Finding
  | [] => []
  | d :: ds =>
    let repeated := match seen.find? fun e => e.kind == d.kind && e.name == d.name with
      | some first => [Finding.duplicate d.kind d.name d.nameSpan first.nameSpan]
      | none => []
    repeated ++ duplicatesAfter (seen ++ [d]) ds

/-! ### Pipelines -/

/-- What is wrong with one reference of a call. -/
def referenceFinding? (scope : Scope) (pipeline : Text) (offset : Nat) (r : Reference) :
    Option Finding :=
  if scope.binds r.root then none
  else some (.unknownVariable r.root pipeline (r.rootSpan.shift offset))

/-- What is wrong with one call on a line of code that stands at an offset. Arguments that do not
close on the line are not looked at. -/
def callFindings (known : List Text) (scope : Scope) (pipeline : Text) (offset : Nat) (code : Text)
    (call : Call) : List Finding :=
  let moduleFinding :=
    if known.contains call.module then []
    else [Finding.unknownModule call.module (call.moduleSpan.shift offset)]
  let argumentFindings := match call.args with
    | some args =>
      (code.slice args).references.filterMap
        (referenceFinding? scope pipeline (offset + args.start))
    | none => []
  moduleFinding ++ argumentFindings

/-- The scope after a line of code. -/
def Scope.afterLine (scope : Scope) (code : Text) : Scope :=
  match code.binding? with
  | some binding => scope.bind binding.name
  | none => scope

/-- What is wrong with the lines of a pipeline, the first of which stands at an offset. `depth`
counts the braces that the lines before have opened and not closed; a line that closes more than
were opened ends the review. -/
def lineFindings (known : List Text) (pipeline : Text) :
    (offset : Nat) → (depth : Int) → Scope → List Text → List Finding
  | _, _, _, [] => []
  | offset, depth, scope, line :: lines =>
    let (opened, closed) := line.codeBraces
    let depth := depth + opened - closed
    if depth < 0 then []
    else
      let code := line.codePart
      let scope := scope.afterLine code
      code.lineCalls.flatMap (callFindings known scope pipeline offset code) ++
        lineFindings known pipeline (offset + line.byteLength) depth scope lines

/-- What is wrong with the body of a pipeline. -/
def pipelineFindings (source : Text) (known : List Text) (d : Declaration) : List Finding :=
  lineFindings known d.name d.body.start 0 .initial (d.content source).lines

/-! ### The review -/

namespace Text

/-- All findings, pass by pass. -/
def emitted (source : Text) (extra : List Text) : List Finding :=
  let known := source.knownModules extra
  braceFindings source ++ nameFindings source ++ duplicatesAfter [] source.declarations ++
    (source.declarations.filter fun d => d.kind == .pipeline).flatMap
      (pipelineFindings source known)

/-- All findings by place; those at one place stay in the order of the passes. -/
def findings (source : Text) (extra : List Text) : List Finding :=
  (source.emitted extra).mergeSort fun f g => f.span.le g.span

/-- **The lenient review**: all diagnostics of a document, by place. -/
def diagnose (source : Text) (extra : List Text) : List Diagnostic :=
  (source.findings extra).map Finding.diagnostic

/-- **The strict review**: the warnings of a document without errors, or else all its
diagnostics. -/
def check (source : Text) (extra : List Text) : Except (List Diagnostic) (List Diagnostic) :=
  let diagnostics := source.diagnose extra
  if diagnostics.any Diagnostic.isError then .error diagnostics else .ok diagnostics

end Text

end PipelineDoc
