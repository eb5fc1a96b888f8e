import Comet.Files.FileError
import Comet.Machine.Console
import Comet.Program
import Comet.Text.Utf8

namespace Comet

/-- Where text goes; a write and the final flush may fail with a reason. -/
structure Writer (σ : Type) where
  write : σ → String → Option String × σ
  flush : σ → Option String × σ

inductive RunError
  | unreadable (path : String) (e : FileError)
  | rejected (diagnostics : List Diagnostic)
  | fault (f : Fault)
  | output (reason : String)
  deriving DecidableEq, Repr

def RunError.message : RunError → String
  | unreadable path e => s!"cannot read {path}: {e.message}"
  | rejected diagnostics => s!"assembly failed with {diagnostics.length} diagnostics"
  | fault f => s!"runtime fault: {f.message}"
  | output reason => s!"cannot write program output: {reason}"

/-- The console of a plain run. Nothing is written after a write has failed. -/
structure StreamConsole (σ : Type) where
  input : List UInt8
  output : σ
  /-- Why the first write that failed did so. -/
  failure : Option String := none

namespace StreamConsole

variable {σ : Type}

def lineFeed : UInt8 := 10

/-- The bytes up to and with the first line feed, and the rest. -/
def splitLine (bytes : List UInt8) : List UInt8 × List UInt8 :=
  let line := bytes.takeWhile (· ≠ lineFeed)
  match bytes.drop line.length with
  | [] => (line, [])
  | feed :: rest => (line ++ [feed], rest)

/-- A line as the program sees it: without line feed and carriage returns at its end. -/
def lineText? (bytes : List UInt8) : Option String :=
  (Text.utf8Decode? bytes).map fun text =>
    .ofList (text.toList.reverse.dropWhile fun c => c = '\r' || c = '\n').reverse

/-- A line that is not UTF-8 is consumed and looks like the end of input. -/
def readLine (c : StreamConsole σ) : Option String × StreamConsole σ :=
  if c.input.isEmpty then (none, c)
  else
    let (line, rest) := splitLine c.input
    (lineText? line, { c with input := rest })

def write (w : Writer σ) (c : StreamConsole σ) (text : String) : StreamConsole σ :=
  if c.failure.isSome then c
  else
    let (failure, output) := w.write c.output text
    { c with failure, output }

def console (w : Writer σ) : Console (StreamConsole σ) where
  readLine := readLine
  writeLine c text := write w (write w c text) "\n"

/-- The outcome of all writes and of the final flush, which is left out after a failure. -/
def finish (w : Writer σ) (c : StreamConsole σ) : Option String × σ :=
  match c.failure with
  | some reason => (some reason, c.output)
  | none => w.flush c.output

end StreamConsole

/-- A run that is over: the number of steps or why it failed, and the writer afterwards. -/
structure RunOutcome (σ : Type) where
  result : Except RunError Nat
  output : σ

/-- The outcome of a run at whose end its console is this one. -/
def StreamConsole.outcome {σ : Type} (w : Writer σ) (c : StreamConsole σ) :
    Except Fault Nat → RunOutcome σ
  | .error f => ⟨.error (.fault f), c.output⟩
  | .ok steps => match c.finish w with
    | (some reason, output) => ⟨.error (.output reason), output⟩
    | (none, output) => ⟨.ok steps, output⟩

namespace Machine

variable {σ : Type}

/-- Steps until the program ends or faults, with `fuel` bounding the number of steps. The answer
counts the steps, the last one included. -/
def runToEnd (io : Console σ) (m : Machine) (s : σ) (steps : Nat) :
    (fuel : Nat) → Option (Except Fault Nat × Machine × σ)
  | 0 => none
  | fuel + 1 =>
    let c := m.stepOn io s
    match c.result with
    | .error f => some (.error f, c.machine, c.console)
    | .ok true => some (.ok (steps + 1), c.machine, c.console)
    | .ok false => c.machine.runToEnd io c.console (steps + 1) fuel

end Machine

variable {σ : Type}

/-- Runs a program on a machine. A fault counts more than output that was lost before it. -/
def Program.run (w : Writer σ) (p : Program) (options : MachineOptions) (input : List UInt8)
    (output : σ) (fuel : Nat) : Option (RunOutcome σ) :=
  match Machine.load p options with
  | .error f => some ⟨.error (.fault f), output⟩
  | .ok m => (m.runToEnd (StreamConsole.console w) { input, output } 0 fuel).map fun
    | (.error f, _, c) => ⟨.error (.fault f), c.output⟩
    | (.ok steps, _, c) => match c.finish w with
      | (some reason, output) => ⟨.error (.output reason), output⟩
      | (none, output) => ⟨.ok steps, output⟩

/-- Reads, assembles and runs a source file. -/
def runFile (w : Writer σ) (assembler : Assembler) (readText : String → Except FileError String)
    (l : Launch) (input : List UInt8) (output : σ) (fuel : Nat) : Option (RunOutcome σ) :=
  match readText l.program with
  | .error e => some ⟨.error (.unreadable l.program e), output⟩
  | .ok source => match assembler source l.assembly with
    | { diagnostics := [], program := some p } => p.run w l.machine input output fuel
    | { diagnostics, .. } => some ⟨.error (.rejected diagnostics), output⟩

/-- The machine with which a file is run, or why it is not run at all. -/
def loadFile (assembler : Assembler) (readText : String → Except FileError String) (l : Launch) :
    Except RunError Machine :=
  match readText l.program with
  | .error e => .error (.unreadable l.program e)
  | .ok source => match assembler source l.assembly with
    | { diagnostics := [], program := some p } => match Machine.load p l.machine with
      | .error f => .error (.fault f)
      | .ok m => .ok m
    | { diagnostics, .. } => .error (.rejected diagnostics)

/-- Keeps the text written, up to a number of bytes if there is a limit. -/
structure TextSink where
  written : String := ""
  /-- The limit, and the reason given by a write that does not fit. -/
  limit : Option (Nat × String) := none
  /-- The reason why the flush fails, if it does. -/
  flushFailure : Option String := none
  deriving DecidableEq, Repr

namespace TextSink

/-- Appends text. A write that does not fit writes nothing; writing no text is no write at all. -/
def write (s : TextSink) (text : String) : Option String × TextSink :=
  let grown := { s with written := s.written ++ text }
  match s.limit with
  | none => (none, grown)
  | some (limit, reason) =>
    if text.isEmpty ∨ grown.written.utf8ByteSize ≤ limit then (none, grown) else (some reason, s)

def writer : Writer TextSink where
  write := write
  flush s := (s.flushFailure, s)

end TextSink

end Comet
