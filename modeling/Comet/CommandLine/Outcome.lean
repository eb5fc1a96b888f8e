import Comet.Adapter.Server
import Comet.CommandLine.Arguments
import Comet.Files.Folder
import Comet.PlainRun

namespace Comet.CommandLine

structure Outcome where
  exitCode : Nat
  stdout : String := ""
  stderr : String := ""
  /-- The messages sent to a debugger's client, which stand on standard output. -/
  sent : List Adapter.Message := []

/-- What is said of a run that failed. -/
def runErrorText : RunError → String
  | .rejected diagnostics => String.join (diagnostics.map fun d => d.display ++ "\n")
  | e => e.message ++ "\n"

def runTask (assembler : Assembler) (root : Folder) (l : Launch) (input : List UInt8) (fuel : Nat) :
    Option Outcome :=
  (runFile TextSink.writer assembler root.readText l input {} fuel).map fun r =>
    match r.result with
    | .ok _ => { exitCode := 0, stdout := r.output.written }
    | .error e => { exitCode := 1, stdout := r.output.written, stderr := runErrorText e }

def serveTask (assembler : Assembler) (root : Folder) (input : List UInt8) (fuel : Nat) :
    Option Outcome :=
  let host : Adapter.Host := { assembler, readText := root.readText, fuel }
  (Adapter.Server.serve {} host (Adapter.incoming input)).map fun (sent, e) =>
    { exitCode := if e.isSome then 1 else 0, sent }

/-- The log file is made anew before anything else is done. -/
def openLog (root : Folder) (s : Settings) : Except FileError Folder :=
  match s.logFile with
  | some path => root.createFile path
  | none => .ok root

def Outcome.of (assembler : Assembler) (root : Folder) (arguments : List String)
    (input : List UInt8) (fuel : Nat) : Option Outcome :=
  match Request.ofArguments arguments with
  | .error e => some { exitCode := 1, stderr := e.text }
  | .ok .help => some { exitCode := 0, stdout := helpText }
  | .ok (.run s) => match openLog root s with
    | .error e => some { exitCode := 1, stderr := logFileText e.message }
    | .ok root => match s.task with
      | .serve => serveTask assembler root input fuel
      | .runProgram l => runTask assembler root l input fuel
      | .nothing => some { exitCode := 1, stderr := nothingText }

end Comet.CommandLine
