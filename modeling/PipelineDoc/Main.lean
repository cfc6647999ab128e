import PipelineDoc.CommandLine.Program

/-!
# The command line

The arguments are read, and the program is run on the files of the disk and the streams of the
process. Failures go to standard error.
-/

namespace PipelineDoc.CommandLine

/-- How the program is used. -/
def usage : String :=
  "Usage: loom [OPTIONS] <COMMAND>\n\n" ++
  "Commands:\n" ++
  "  check <INPUT>                                report the diagnostics of a document\n" ++
  "  graph [-o FILE] [--active MODULE] <INPUT>    write the dependency graph of a document\n" ++
  "  help [COMMAND]                               print this text\n\n" ++
  "Options:\n" ++
  "  -c, --config <CONFIG>          settings file (TOML)\n" ++
  "      --log-level <LOG_LEVEL>    off, error, warn, info, debug or trace [default: info]\n" ++
  "  -h, --help                     print help\n" ++
  "  -V, --version                  print version"

/-- What is said about arguments that make no invocation. -/
def usageMessage : UsageFault → String
  | .help | .nothingGiven => usage
  | .version => "loom 0.1.0"
  | .missingCommand => "error: a command is required\n\n" ++ usage
  | .missingInput => "error: an input file is required\n\n" ++ usage
  | .unknownCommand => "error: unrecognized command\n\n" ++ usage
  | .unknownArgument => "error: unexpected argument\n\n" ++ usage
  | .missingValue => "error: an option lacks its value\n\n" ++ usage
  | .unneededValue => "error: an option takes no value\n\n" ++ usage
  | .repeated => "error: an option is given twice\n\n" ++ usage

/-- The lines that show a report. -/
def reportLines (r : Report) : List String :=
  let kind := match r.severity with
    | some severity => severity.display
    | none => "error"
  let code := match r.code with
    | some code => "[" ++ code ++ "]"
    | none => ""
  let place := fun (a : Annotation) =>
    match r.source with
    | some source =>
      let p := source.position a.span.start
      "  " ++ toString p.line ++ ":" ++ toString p.column ++ ": " ++ a.message
    | none => "  " ++ a.message
  let help := match r.help with
    | some help => ["  help: " ++ help]
    | none => []
  (kind ++ code ++ ": " ++ r.message) :: (r.annotations.map place ++ help)

/-- The fault behind an error of the disk. -/
def faultOf : IO.Error → FileFault
  | .noFileOrDirectory .. => .missing
  | e => .other (toString e)

/-- Reads a file of the disk. -/
def readDisk (name : Text) : IO (Except FileFault ByteArray) := do
  try
    return .ok (← IO.FS.readBinFile (String.ofList name))
  catch e => return .error (faultOf e)

/-- The disk and the streams of the process. -/
def disk : Host IO where
  isPresent name := do
    match ← readDisk name with
    | .error .missing => return false
    | _ => return true
  read := readDisk
  write name t := do
    try
      IO.FS.writeFile (String.ofList name) (String.ofList t)
      return .ok ()
    catch e => return .error (faultOf e)
  toLibrary := .standard
  print t := IO.print (String.ofList t)
  warn r := do
    try
      for line in reportLines r do IO.eprintln line
      return .ok ()
    catch e => return .error (faultOf e)

/-- The settings file of the platform. -/
def platformSettings : IO (Option Text) := do
  let below := fun (directory : String) => (directory ++ "/loom/config.toml").toList
  match ← IO.getEnv "XDG_CONFIG_HOME" with
  | some directory => return some (below directory)
  | none => return (← IO.getEnv "HOME").map fun home => below (home ++ "/.config")

/-- Runs the program with arguments and gives the exit code. -/
def run (args : List String) : IO UInt32 := do
  match Invocation.ofArguments (args.map String.toList) with
  | .error fault =>
    if fault.exitCode = 0 then IO.println (usageMessage fault)
    else IO.eprintln (usageMessage fault)
    return fault.exitCode.toUInt32
  | .ok invocation =>
    match ← Program.run disk (← platformSettings) invocation with
    | .ok _ => return 0
    | .error failure =>
      for r in failure.reports do
        for line in reportLines r do IO.eprintln line
      return 1

end PipelineDoc.CommandLine

/-- The program. -/
def main (args : List String) : IO UInt32 := PipelineDoc.CommandLine.run args
