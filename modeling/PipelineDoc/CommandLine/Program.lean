import PipelineDoc.Analysis
import PipelineDoc.CommandLine.Host
import PipelineDoc.CommandLine.Invocation
import PipelineDoc.Graph.Rendering

/-!
# The program

A run loads the settings, reads the document and then checks it or writes its graph. The settings
file is the one that the invocation names, else the one in the working directory, else the one of
the platform; without any of them the settings have their defaults.

The settings are loaded before the document is read, so of two faults the one of the settings is
reported. A failed run prints nothing to standard output.
-/

namespace PipelineDoc

/-- What a run has printed. -/
structure Printout where
  /-- What went to standard output. -/
  output : Text
  /-- What went to standard error. -/
  warnings : List Report
  deriving DecidableEq, Repr

namespace Program

variable {m : Type → Type} [Monad m] (host : Host m)

/-- The settings file in the working directory. -/
def localSettings : Text := "loom/config.toml".toList

/-- Reads a file that must hold text. -/
def readText (name : Text) : ExceptT Failure m Text := do
  match ← host.read name with
  | .error fault => throw (.file fault)
  | .ok content =>
    match String.fromUTF8? content with
    | some s => return s.toList
    | none => throw (.file .notText)

/-- Loads a settings file that must be there. -/
def loadFile (name : Text) : ExceptT Failure m Settings := do
  if ← host.isPresent name then
    let t ← readText host name
    match host.parseSettings t with
    | .ok settings => return settings
    | .error message => throw (.settings ("Failed to parse TOML configuration: " ++ message))
  else throw (.settings ("Missing configuration file: " ++ String.ofList name))

/-- Loads the first of the given settings files that is there. -/
def loadFirst : List Text → ExceptT Failure m Settings
  | [] => return {}
  | name :: names => do
    if ← host.isPresent name then loadFile host name else loadFirst names

/-- Loads the settings of a run. `platform` is the settings file of the platform, if it has one. -/
def loadSettings (platform : Option Text) (explicit : Option Text) : ExceptT Failure m Settings :=
  match explicit with
  | some name => loadFile host name
  | none => loadFirst host (localSettings :: platform.toList)

/-- Prints reports on standard error, up to the first that it does not take. -/
def warnAll : List Report → ExceptT Failure m Unit
  | [] => return ()
  | r :: reports => do
    match ← host.warn r with
    | .ok () => warnAll reports
    | .error fault => throw (.file fault)

/-- Checks a document: a document with errors is refused, and warnings are printed. -/
def check (settings : Settings) (source : Text) : ExceptT Failure m Printout := do
  match settings.check source with
  | .error diagnostics => throw (.refused diagnostics source)
  | .ok warnings =>
    let reports := warnings.map fun d => d.report source
    warnAll host reports
    return ⟨[], reports⟩

/-- Writes a text to the output file, or prints it as a line. -/
def deliver (output : Option Text) (t : Text) : ExceptT Failure m Printout := do
  match output with
  | none =>
    host.print (t ++ ['\n'])
    return ⟨t ++ ['\n'], []⟩
  | some name =>
    match ← host.write name t with
    | .ok () => return ⟨[], []⟩
    | .error fault => throw (.file fault)

/-- **Runs the program.** -/
def run (platform : Option Text) (i : Invocation) : ExceptT Failure m Printout := do
  let settings ← loadSettings host platform i.settings
  let source ← readText host i.input
  match i.command with
  | .check => check host settings source
  | .graph =>
    match host.writeValue (settings.graph source i.active).toValue with
    | .ok t => deliver host i.output t
    | .error fault => throw (.file fault)

end Program

end PipelineDoc
