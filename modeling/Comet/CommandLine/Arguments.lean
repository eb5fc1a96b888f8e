import Comet.Options

namespace Comet.CommandLine

inductive LogLevel
  | off | error | warn | info | debug | trace
  deriving DecidableEq, Repr

def LogLevel.all : List (String × LogLevel) :=
  [("off", off), ("error", error), ("warn", warn), ("info", info), ("debug", debug),
    ("trace", trace)]

/-- Levels may be written in letters of either case. -/
def LogLevel.ofName? (name : String) : Option LogLevel := all.lookup name.toLower

structure Settings where
  dap : Bool := false
  logLevel : Option LogLevel := none
  logFile : Option String := none
  noGr8AsSp : Bool := false
  noLabelScope : Bool := false
  program : Option String := none
  deriving DecidableEq, Repr

/-- What is wrong with the value of an option. -/
inductive ValueError
  | repeated
  | notALevel
  deriving DecidableEq, Repr

def ValueError.message : ValueError → String
  | repeated => "duplicate values provided"
  | notALevel => "attempted to convert a string that doesn't match an existing log level"

inductive UsageError
  | unrecognized (argument : String)
  | valueMissing (option : String)
  | badValue (option value : String) (e : ValueError)
  | behindHelp
  deriving DecidableEq, Repr

def UsageError.message : UsageError → String
  | unrecognized argument => s!"Unrecognized argument: {argument}\n"
  | valueMissing option => s!"No value provided for option '{option}'.\n"
  | badValue option value e =>
    s!"Error parsing option '{option}' with value '{value}': {e.message}\n"
  | behindHelp => "Trailing arguments are not allowed after `help`."

def programName : String := "comet2-debugger"

def UsageError.text (e : UsageError) : String :=
  s!"{e.message}\nRun {programName} --help for more information.\n"

def helpText : String :=
  "Usage: " ++ programName ++ " [--dap] [--log-level <log-level>] [--log-file <log-file>] " ++
  "[--no-gr8-as-sp] [--no-label-scope] [--] [<program>]\n\n" ++
  "CASL II assembler, COMET II simulator and debug adapter\n\n" ++
  "Positional Arguments:\n" ++
  "  program           program to assemble and run\n\n" ++
  "Options:\n" ++
  "  --dap             serve the Debug Adapter Protocol on stdin/stdout\n" ++
  "  --log-level       log level: off, error, warn, info, debug or trace\n" ++
  "  --log-file        write logs to this file instead of stderr\n" ++
  "  --no-gr8-as-sp    do not let register field 8 address SP\n" ++
  "  --no-label-scope  make every label global\n" ++
  "  -h, --help        display usage information\n\n"

/-- What a command line asks for. -/
inductive Request
  | help
  | run (settings : Settings)
  deriving DecidableEq, Repr

def setLogLevel (s : Settings) (option value : String) : Except UsageError Settings :=
  if s.logLevel.isSome then .error (.badValue option value .repeated)
  else match LogLevel.ofName? value with
    | some level => .ok { s with logLevel := some level }
    | none => .error (.badValue option value .notALevel)

def setLogFile (s : Settings) (option value : String) : Except UsageError Settings :=
  if s.logFile.isSome then .error (.badValue option value .repeated)
  else .ok { s with logFile := some value }

/-- An argument that names no option. -/
def setProgram (s : Settings) (argument : String) : Except UsageError Settings :=
  if s.program.isSome then .error (.unrecognized argument)
  else .ok { s with program := some argument }

/-- Reads the arguments behind the `--`, none of which is an option. -/
def readProgram (s : Settings) : List String → Except UsageError Settings
  | [] => .ok s
  | argument :: rest => (setProgram s argument).bind fun s => readProgram s rest

/-- The options that have no value. -/
def switch? (s : Settings) : String → Option Settings
  | "--dap" => some { s with dap := true }
  | "--no-gr8-as-sp" => some { s with noGr8AsSp := true }
  | "--no-label-scope" => some { s with noLabelScope := true }
  | _ => none

/-- The options that have a value, which is the argument behind them whatever it looks like. -/
def valueOption? : String → Option (Settings → String → String → Except UsageError Settings)
  | "--log-level" => some setLogLevel
  | "--log-file" => some setLogFile
  | _ => none

/-- Reads the arguments, where `help` tells whether help has been asked for. After that no option
may follow. -/
def readArguments (s : Settings) (help : Bool) : List String → Except UsageError Request
  | [] => .ok (if help then .help else .run s)
  | "--" :: rest => (readProgram s rest).map fun s => if help then .help else .run s
  | argument :: rest =>
    if argument = "-h" ∨ argument = "--help" then readArguments s true rest
    else if argument.toList.head? ≠ some '-' then
      (setProgram s argument).bind fun s => readArguments s help rest
    else if help then .error .behindHelp
    else match switch? s argument with
      | some s => readArguments s help rest
      | none => match valueOption? argument, rest with
        | none, _ => .error (.unrecognized argument)
        | some _, [] => .error (.valueMissing argument)
        | some set, value :: rest =>
          (set s argument value).bind fun s => readArguments s help rest

def Request.ofArguments (arguments : List String) : Except UsageError Request :=
  readArguments {} false arguments

/-- The work of a command line that has been understood. -/
inductive Task
  | serve
  | runProgram (l : Launch)
  | nothing
  deriving DecidableEq, Repr

/-- Serving a debugger goes before running a program. -/
def Settings.task (s : Settings) : Task :=
  if s.dap then .serve
  else match s.program with
    | none => .nothing
    | some program => .runProgram {
        program,
        machine := { gr8IsSp := !s.noGr8AsSp },
        assembly := { labelScope := !s.noLabelScope } }

/-- Answer to a command line that leaves nothing to do. -/
def nothingText : String := "expected a program to run, or --dap\n"

def logFileText (reason : String) : String := s!"cannot open log file: {reason}\n"

end Comet.CommandLine
