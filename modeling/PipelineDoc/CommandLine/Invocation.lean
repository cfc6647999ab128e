import PipelineDoc.Text.Basic

/-!
# Invocations

    [options] check [options] INPUT
    [options] graph [options] [-o FILE] [--active MODULE] INPUT

The options `-c`, `--config` and `--log-level` may stand on both *levels*, before and after the
command; what is given after it wins. On one level no option may be given twice.

A value follows its option as the next argument, or in the same argument: `--name=value`, `-oVALUE`
or `-o=VALUE`. The next argument is a value only if it does not look like an option. After `--` no
argument is an option. An option is *pending* from the time when it is read until the next option or
input is read, or the level ends; only then is a missing value or a repetition noticed, so that an
unknown argument that comes first is what gets reported.
-/

namespace PipelineDoc

/-- What is to be done with a document. -/
inductive Command where
  | check
  | graph
  deriving DecidableEq, Repr

/-- The name of a command. -/
def Command.name : Command → String
  | .check => "check"
  | .graph => "graph"

/-- All commands. -/
def Command.all : List Command := [.check, .graph]

/-- The command of a name. -/
def Command.ofName? (t : Text) : Option Command := all.find? fun c => c.name.toList == t

/-- The name under which help is asked for as a command. -/
def helpName : Text := ['h', 'e', 'l', 'p']

/-- Whether a text is the name of a command, or asks for help. -/
def isCommandName (t : Text) : Bool := (Command.ofName? t).isSome || t == helpName

/-- The options. -/
inductive Flag where
  | settings
  | logLevel
  | output
  | active
  | help
  | version
  deriving DecidableEq, Repr

namespace Flag

/-- The long name of an option. -/
def longName : Flag → String
  | .settings => "config"
  | .logLevel => "log-level"
  | .output => "output"
  | .active => "active"
  | .help => "help"
  | .version => "version"

/-- The short name of an option. -/
def shortName? : Flag → Option Char
  | .settings => some 'c'
  | .output => some 'o'
  | .help => some 'h'
  | .version => some 'V'
  | .logLevel | .active => none

end Flag

/-- A level of a command line: before the command, or after it. -/
inductive Level where
  | top
  | command (command : Command)
  deriving DecidableEq, Repr

/-- The options of a level. -/
def Level.flags : Level → List Flag
  | .top => [.settings, .logLevel, .help, .version]
  | .command .check => [.settings, .logLevel, .help]
  | .command .graph => [.settings, .logLevel, .output, .active, .help]

/-- Why arguments make no invocation. -/
inductive UsageFault where
  /-- Help is asked for. -/
  | help
  /-- The version is asked for. -/
  | version
  /-- There is neither a command nor an option. -/
  | nothingGiven
  | missingCommand
  | missingInput
  | unknownCommand
  | unknownArgument
  /-- An option lacks its value. -/
  | missingValue
  /-- An option that takes no value has one. -/
  | unneededValue
  /-- An option is given twice on one level. -/
  | repeated
  deriving DecidableEq, Repr

/-- The exit code: asking for help or the version is no error. -/
def UsageFault.exitCode : UsageFault → Nat
  | .help | .version => 0
  | _ => 2

/-- What has been read on a level. -/
structure Reading where
  /-- The options with their values. -/
  given : List (Flag × Text)
  /-- The option that was read last, with its value if that has been read. -/
  pending : Option (Flag × Option Text)
  input : Option Text
  /-- Whether `--` has been read. -/
  literal : Bool
  deriving DecidableEq, Repr

namespace Reading

/-- A level before its first argument. -/
def empty : Reading := ⟨[], none, none, false⟩

/-- The value of an option. -/
def value? (r : Reading) (flag : Flag) : Option Text := r.given.lookup flag

/-- Records the value of an option. -/
def give (r : Reading) (flag : Flag) (value : Text) : Except UsageFault Reading :=
  if (r.value? flag).isSome then .error .repeated
  else .ok { r with given := r.given ++ [(flag, value)] }

/-- Records the pending option. -/
def settle (r : Reading) : Except UsageFault Reading :=
  match r.pending with
  | none => .ok r
  | some (_, none) => .error .missingValue
  | some (flag, some value) => ({ r with pending := none } : Reading).give flag value

/-- Reads an option, perhaps with a value in the same argument. -/
def addFlag (r : Reading) (flag : Flag) (attached : Option Text) : Except UsageFault Reading :=
  match flag, attached with
  | .help, none => r.settle.bind fun _ => .error .help
  | .version, none => r.settle.bind fun _ => .error .version
  | .help, some _ => .error .unneededValue
  | .version, some _ => .error .unneededValue
  | flag, some value => r.settle.bind fun r => r.give flag value
  | flag, none => r.settle.map fun r => { r with pending := some (flag, none) }

/-- Reads an option by its long name, without the dashes. -/
def addLong (r : Reading) (level : Level) (t : Text) : Except UsageFault Reading :=
  let name := t.takeWhile (· != '=')
  let attached := match t.drop name.length with
    | _ :: value => some value
    | [] => none
  match level.flags.find? fun f => f.longName.toList == name with
  | some flag => r.addFlag flag attached
  | none => .error .unknownArgument

/-- Reads an option by its short name `c`, with the rest of the argument. -/
def addShort (r : Reading) (level : Level) (c : Char) (rest : Text) : Except UsageFault Reading :=
  match level.flags.find? fun f => f.shortName? == some c with
  | none => .error .unknownArgument
  | some flag =>
    match flag with
    | .help | .version => r.addFlag flag none
    | flag =>
      match rest with
      | [] => r.addFlag flag none
      | '=' :: value => r.addFlag flag (some value)
      | value => r.addFlag flag (some value)

/-- Reads an argument that is no option. A command takes one; before the command there is none. -/
def addPlain (r : Reading) (level : Level) (arg : Text) : Except UsageFault Reading :=
  match level with
  | .top => .error (if r.literal && isCommandName arg then .unknownArgument else .unknownCommand)
  | .command _ =>
    match r.input with
    | none => r.settle.map fun r => { r with input := some arg }
    | some _ => .error .unknownArgument

/-- Reads one argument of a level. -/
def add (r : Reading) (level : Level) (arg : Text) : Except UsageFault Reading :=
  if r.literal then r.addPlain level arg
  else match arg with
    | ['-', '-'] => .ok { r with literal := true }
    | '-' :: '-' :: t => r.addLong level t
    | '-' :: c :: rest => r.addShort level c rest
    | arg =>
      match r.pending with
      | some (flag, none) => .ok { r with pending := some (flag, some arg) }
      | _ => r.addPlain level arg

end Reading

/-- The level before the command: what has been read, the command, and the arguments after it. An
argument is a command unless it is the value of an option. -/
def readTop (r : Reading) : List Text → Except UsageFault (Reading × Option (Command × List Text))
  | [] => .ok (r, none)
  | arg :: args =>
    let awaitsValue := match r.pending with
      | some (_, none) => true
      | _ => false
    if !r.literal && !awaitsValue && isCommandName arg then
      match Command.ofName? arg with
      | some command => .ok (r, some (command, args))
      | none =>
        match args with
        | [] => .error .help
        | [name] => .error (if isCommandName name then .help else .unknownCommand)
        | _ => .error .unknownCommand
    else (r.add .top arg).bind fun r => readTop r args

/-- The level after a command. -/
def readCommand (command : Command) (args : List Text) : Except UsageFault Reading := do
  let r ← args.foldlM (fun r arg => Reading.add r (.command command) arg) .empty
  let r ← r.settle
  if r.input.isSome then .ok r else .error .missingInput

/-- What the program is asked to do. -/
structure Invocation where
  command : Command
  input : Text
  /-- The file to write the graph to. -/
  output : Option Text
  /-- The module to make active. -/
  active : Option Text
  /-- The settings file. -/
  settings : Option Text
  logLevel : Text
  deriving DecidableEq, Repr

/-- **Reads the arguments of the program.** -/
def Invocation.ofArguments (args : List Text) : Except UsageFault Invocation := do
  let (top, rest) ← readTop .empty args
  match rest with
  | none =>
    let top ← top.settle
    .error (if top.given.isEmpty then .nothingGiven else .missingCommand)
  | some (command, args) =>
    let r ← readCommand command args
    let top ← top.settle
    return {
      command
      input := r.input.getD []
      output := r.value? .output
      active := r.value? .active
      settings := r.value? .settings <|> top.value? .settings
      logLevel := (r.value? .logLevel <|> top.value? .logLevel).getD ['i', 'n', 'f', 'o'] }

end PipelineDoc
