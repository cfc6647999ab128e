import PipelineDoc.Diagnostic

/-!
# Failures and reports

A failure is what ends a command. It is told to the user by *reports*: one for each diagnostic of a
refused document, and a single one for anything else.
-/

namespace PipelineDoc

/-- What is wrong with a file or a stream. -/
inductive FileFault where
  | missing
  | notDirectory
  | isDirectory
  /-- The name, or a part of it, is longer than names can be. -/
  | nameTooLong
  /-- The name holds a character that no file name can hold. -/
  | badName
  | notText
  | other (message : String)
  deriving DecidableEq, Repr

/-- The wording of a file fault. -/
def FileFault.message : FileFault → String
  | .missing => "No such file or directory (os error 2)"
  | .notDirectory => "Not a directory (os error 20)"
  | .isDirectory => "Is a directory (os error 21)"
  | .nameTooLong => "File name too long (os error 36)"
  | .badName => "file name contained an unexpected NUL byte"
  | .notText => "stream did not contain valid UTF-8"
  | .other message => message

/-- What ends a command. -/
inductive Failure where
  | file (fault : FileFault)
  /-- A strict review has found errors. -/
  | refused (diagnostics : List Diagnostic) (source : Text)
  | settings (message : String)
  | simulation (message : String)
  deriving DecidableEq, Repr

/-- The wording of a failure. -/
def Failure.message : Failure → String
  | .file fault => "I/O error: " ++ fault.message
  | .refused diagnostics _ => Diagnostic.summary diagnostics
  | .settings message => "Configuration error: " ++ message
  | .simulation message => "Simulation error: " ++ message

/-- What is shown to the user. -/
structure Report where
  message : String
  code : Option String
  /-- The severity of a diagnostic; other failures have none. -/
  severity : Option Severity
  help : Option String
  annotations : List Annotation
  /-- The document that the annotations point into. -/
  source : Option Text
  /-- What lies behind the failure. -/
  cause : Option String
  deriving DecidableEq, Repr

/-- The report of a diagnostic of a document. -/
def Diagnostic.report (d : Diagnostic) (source : Text) : Report where
  message := d.message
  code := d.code.map Code.display
  severity := some d.severity
  help := d.help
  annotations := d.annotations
  source := some source
  cause := none

namespace Failure

/-- The code of a failure. -/
def code : Failure → Option String
  | .file _ => some "loom::io"
  | .refused .. => none
  | .settings _ => some "loom::config"
  | .simulation _ => some "loom::simulation"

/-- How to mend a failure. -/
def help : Failure → Option String
  | .settings _ => some "pass a valid TOML file with --config or remove loom/config.toml"
  | _ => none

/-- The report of a failure as a whole. -/
def plainReport (f : Failure) : Report where
  message := f.message
  code := f.code
  severity := none
  help := f.help
  annotations := []
  source := none
  cause := match f with
    | .file fault => some fault.message
    | _ => none

/-- The reports of a failure. -/
def reports : Failure → List Report
  | .refused diagnostics source => diagnostics.map fun d => d.report source
  | f => [f.plainReport]

end Failure

end PipelineDoc
