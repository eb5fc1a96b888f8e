import Comet.Assembly.Link
import Comet.CommandLine.Outcome

/-! The program itself: the command line, files and standard streams of a real system around the
assembler, the machine and the debug adapter. Here bytes are only moved. A run goes on with
`Machine.stepOn` and ends with `StreamConsole.outcome`; a server takes its stream byte by byte with
`FrameReader.feed` and answers with `Server.receive`. -/
namespace Comet.CommandLine

/-- More line steps than any request takes. -/
def stepBound : Nat := 0x4000000000000000

/-- What the system says went wrong. -/
def systemText (e : IO.Error) : String :=
  match e with
  | .alreadyExists _ code details | .otherError code details | .resourceBusy code details
  | .resourceVanished code details | .unsupportedOperation code details
  | .hardwareFault code details | .unsatisfiedConstraints code details
  | .illegalOperation code details | .protocolError code details | .timeExpired code details
  | .interrupted _ code details | .noFileOrDirectory _ code details
  | .invalidArgument _ code details | .permissionDenied _ code details
  | .resourceExhausted _ code details | .inappropriateType _ code details
  | .noSuchThing _ code details => s!"{details} (os error {code})"
  | .unexpectedEof => "end of file"
  | .userError text => text

/-- Why the action has failed, if it has. -/
def failureOf (action : IO Unit) : IO (Option String) := do
  try
    action
    return none
  catch e => return some (systemText e)

def readTextFile (path : String) : IO (Except FileError String) := do
  match Folder.checkName path with
  | .error e => return .error e
  | .ok () =>
    try
      let bytes ← (← IO.FS.Handle.mk path .read).readBinToEnd
      match String.fromUTF8? bytes with
      | some text => return .ok text
      | none => return .error .notUtf8
    catch e => return .error (.other (systemText e))

/-- The next byte, unless the input is at its end. -/
def readByte (input : IO.FS.Stream) : IO (Option UInt8) :=
  return (← input.read 1).toList.head?

/-- The bytes up to and with a line feed, or up to the end of input. -/
def readLineBytes (input : IO.FS.Stream) : IO (List UInt8) :=
  IO.iterate [] fun reversed => do
    match ← readByte input with
    | none => return .inr reversed.reverse
    | some b =>
      let reversed := b :: reversed
      return if b = StreamConsole.lineFeed then .inr reversed.reverse else .inl reversed

/-- A line for the program; input that fails is at its end. -/
def readProgramLine (input : IO.FS.Stream) : IO (Option String) := do
  try
    let bytes ← readLineBytes input
    return if bytes.isEmpty then none else StreamConsole.lineText? bytes
  catch _ => return none

/-- Writes a line unless an earlier one has failed, and tells of the first failure. -/
def writeProgramLine (output : IO.FS.Stream) (failure : Option String) (text : String) :
    IO (Option String) :=
  if failure.isSome then return failure
  else failureOf do
    output.putStr (text ++ "\n")
    output.flush

def runMachine (input output : IO.FS.Stream) (m : Machine) : IO (RunOutcome TextSink) := do
  let (result, failure) ← IO.iterate (m, 0, none) fun (m, steps, failure) => do
    let line ← if m.ReadsLine then readProgramLine input else pure none
    let c := m.stepOn LineQueue.console { input := line.toList }
    let failure ← c.console.output.foldlM (writeProgramLine output) failure
    match c.result with
    | .error f => return .inr (.error f, failure)
    | .ok true => return .inr (.ok (steps + 1), failure)
    | .ok false => return .inl (c.machine, steps + 1, failure)
  let sink : TextSink := { flushFailure := ← failureOf output.flush }
  return StreamConsole.outcome TextSink.writer { input := [], output := sink, failure } result

def runProgram (l : Launch) : IO (Except RunError Nat) := do
  let text ← readTextFile l.program
  match loadFile assemble (fun _ => text) l with
  | .error e => return .error e
  | .ok m => return (← runMachine (← IO.getStdin) (← IO.getStdout) m).result

/-- What the reader comes to with the next byte. -/
def readOn (input : IO.FS.Stream) (reader : Adapter.FrameReader) :
    IO (Adapter.FrameReader ⊕ Adapter.Frame) := do
  try
    match ← readByte input with
    | some b => return reader.feed b
    | none => return .inr reader.close
  catch e => return .inr (.failed (.other (systemText e)))

/-- Answers what has been received, with no other file than the one that the answer depends on. -/
def answer (output : IO.FS.Stream) (s : Adapter.Server) (i : Adapter.Incoming) :
    IO Adapter.Server.Reception := do
  let text ← match i.path? with
    | some path => readTextFile path
    | none => pure (.error .notFound)
  match s.receive { assembler := assemble, readText := fun _ => text, fuel := stepBound } i with
  | none => return .over none
  | some (sent, next) =>
    let failure ← failureOf do
      sent.forM fun m => output.putStr (Adapter.frameText m)
      output.flush
    return match failure with
      | some reason => .over (some (.other reason))
      | none => next

/-- Answers requests until the client disconnects or nothing more can be read. -/
def serve (input output : IO.FS.Stream) : IO (Option Adapter.StreamError) :=
  IO.iterate (({} : Adapter.Server), Adapter.FrameReader.start) fun (s, reader) => do
    match ← readOn input reader with
    | .inl reader => return .inl (s, reader)
    | .inr frame => match frame.incoming? with
      | none => return .inr none
      | some i => match ← answer output s i with
        | .going s => return .inl (s, .start)
        | .over failure => return .inr failure

def perform (s : Settings) : IO UInt32 := do
  if let some path := s.logFile then
    if let some reason ← failureOf (discard (IO.FS.Handle.mk path .write)) then
      IO.eprint (logFileText reason)
      return 1
  match s.task with
  | .serve =>
    let failure ← serve (← IO.getStdin) (← IO.getStdout)
    return if failure.isSome then 1 else 0
  | .runProgram l =>
    match ← runProgram l with
    | .ok _ => return 0
    | .error e =>
      IO.eprint (runErrorText e)
      return 1
  | .nothing =>
    IO.eprint nothingText
    return 1

end Comet.CommandLine

open Comet.CommandLine in
def main (arguments : List String) : IO UInt32 := do
  match Request.ofArguments arguments with
  | .error e =>
    IO.eprint e.text
    return 1
  | .ok .help =>
    IO.print helpText
    return 0
  | .ok (.run settings) => perform settings
