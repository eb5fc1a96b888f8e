import Comet.Debug.Breakpoint
import Comet.Debug.LineStepper
import Comet.Debug.Variable
import Comet.Files.FileError
import Comet.Files.Path

/-! A debugging session: launching a program, stepping it, stopping at breakpoints, waiting for
input, and telling of all this by events. Requests that may run for long take a bound on the number
of line steps; their answer is missing if the bound does not suffice. -/
namespace Comet

namespace Session

/-- What a session that waits for input goes on with. -/
inductive Pending
  | run
  | stepIn
  /-- Runs until the call stack has this depth. -/
  | stepOut (depth : Nat)
  | next
  deriving DecidableEq, Repr

inductive State
  | idle
  /-- Stopped at a line, or running from it. -/
  | running (line : Nat)
  | waiting (line : Nat) (pending : Pending)
  | terminated
  /-- The program cannot go on. -/
  | failed (line : Nat)
  deriving DecidableEq, Repr

inductive StopReason
  | entry
  | step
  | breakpoint
  | exception
  deriving DecidableEq, Repr

def StopReason.name : StopReason → String
  | entry => "entry"
  | step => "step"
  | breakpoint => "breakpoint"
  | exception => "exception"

inductive OutputCategory
  | console
  | stdout
  | stderr
  deriving DecidableEq, Repr

def OutputCategory.name : OutputCategory → String
  | console => "console"
  | stdout => "stdout"
  | stderr => "stderr"

inductive Event
  | stopped (reason : StopReason) (description : Option String)
  | terminated
  | output (category : OutputCategory) (text : String)
  deriving DecidableEq, Repr

inductive Error
  | unsupportedSource (path : String)
  | unreadable (path : String) (e : FileError)
  | notLaunched
  | alreadyLaunched
  | unavailable (expression : String)
  | launch (e : StepError)
  deriving DecidableEq, Repr

def Error.message : Error → String
  | unsupportedSource path => s!"only .cas files can be debugged: {path}"
  | unreadable path e => s!"cannot read {path}: {e.message}"
  | notLaunched => "no program has been launched"
  | alreadyLaunched => "a program has already been launched"
  | unavailable _ => "unavailable"
  | launch e => s!"launch failed: {e.message}"

/-- What an expression is evaluated for. -/
inductive EvaluateContext
  | repl
  | hover
  | other
  deriving DecidableEq, Repr

def EvaluateContext.ofName : Option String → EvaluateContext
  | some "repl" => repl
  | some "hover" => hover
  | _ => other

inductive Evaluation
  /-- The expression went to the program as a line of input. -/
  | inputAccepted
  | value (v : Variable)
  deriving DecidableEq, Repr

/-- A frame of the call stack as it is shown: at the line where it is. -/
structure FrameView where
  id : Nat
  name : String
  line : Nat
  deriving DecidableEq, Repr

structure StackTrace where
  /-- Innermost first. -/
  frames : List FrameView := []
  totalFrames : Nat := 0
  deriving DecidableEq, Repr

structure Scope where
  name : String
  reference : Int
  deriving DecidableEq, Repr

/-- The reference by which the variables of the one scope are asked for. -/
def registersReference : Int := 1

def scopes : List Scope := [⟨"Registers", registersReference⟩]

/-- Only source files with this extension are launched. -/
def sourceExtension : String := "cas"

def inputPrompt : String := "Input requested. Type a value in the debug console.\n"

/-- How a file is read as text. -/
abbrev ReadText := String → Except FileError String

end Session

open Session

structure Session where
  stepper : LineStepper := {}
  breakpoints : BreakpointTable := {}
  /-- The path of the program, once it has been loaded. -/
  sourceFile : Option String := none
  state : Session.State := .idle
  /-- Events nobody has taken yet, oldest first. -/
  events : Array Event := #[]
  deriving DecidableEq

namespace Session

def emit (s : Session) (e : Event) : Session := { s with events := s.events.push e }

def takeEvents (s : Session) : List Event × Session := (s.events.toList, { s with events := #[] })

def terminate (s : Session) : Session := { s with state := .terminated }.emit .terminated

def stop (s : Session) (line : Nat) (reason : StopReason) : Session :=
  { s with state := .running line }.emit (.stopped reason none)

def fail (s : Session) (line : Nat) (message : String) : Session :=
  ({ s with state := .failed line }.emit (.output .stderr (message ++ "\n"))).emit
    (.stopped .exception (some message))

def wait (s : Session) (line : Nat) (pending : Pending) : Session :=
  { s with state := .waiting line pending }.emit (.output .console inputPrompt)

/-- The line at which the session is, if it is at one. -/
def currentLine (s : Session) : Option Nat :=
  match s.state with
  | .running line | .waiting line _ | .failed line => some line
  | .idle | .terminated => none

/-- Whether execution stops before the line. -/
def hitsBreakpoint (s : Session) (line : Nat) : Bool :=
  match s.sourceFile with
  | some path => s.breakpoints.contains path line
  | none => false

/-- Passes on what the program has written. -/
def passOutput (s : Session) : Session :=
  let (texts, stepper) := s.stepper.takeOutput
  texts.foldl (fun s text => s.emit (.output .stdout (text ++ "\n"))) { s with stepper }

/-- Leaves one line. There is a next line to go on from unless the session has come to rest. -/
def advance (s : Session) (line : Nat) (pending : Pending) : Option Nat × Session :=
  let (result, stepper) := s.stepper.stepLine line
  let s := { s with stepper }.passOutput
  match result with
  | .error e => (none, s.fail line e.message)
  | .ok (.ended _) => (none, s.terminate)
  | .ok (.waits line) => (none, s.wait line pending)
  | .ok (.moved (some next)) => (some next, s)
  | .ok (.moved none) =>
    let address := s.stepper.machine.pr.hex
    (none, s.fail line s!"execution reached #{address}, which maps to no source line")

/-- Why execution stops before the line. Single steps stop anywhere; a breakpoint is preferred to
the depth that a step out has reached. -/
def stopReason? (s : Session) (pending : Pending) (line : Nat) : Option StopReason :=
  match pending with
  | .stepIn | .next => some .step
  | .run => if s.hitsBreakpoint line then some .breakpoint else none
  | .stepOut depth =>
    if s.hitsBreakpoint line then some .breakpoint
    else if s.stepper.stack.depth = depth then some .step
    else none

/-- Leaves lines until there is a reason to stop, with `fuel` bounding their number. -/
def runFrom (s : Session) (line : Nat) (pending : Pending) : (fuel : Nat) → Option Session
  | 0 => none
  | fuel + 1 =>
    match s.advance line pending with
    | (none, s) => some s
    | (some next, s) => match s.stopReason? pending next with
      | some reason => some (s.stop next reason)
      | none => s.runFrom next pending fuel

/-- Steps over a call by running until the caller has control again. -/
def stepOver (s : Session) (line : Nat) (fuel : Nat) : Option Session :=
  match s.stepper.peek line with
  | .error e => some (s.fail line e.message)
  | .ok (some .call) =>
    let depth := s.stepper.stack.depth
    match s.advance line .next with
    | (none, s) => some s
    | (some next, s) =>
      if s.hitsBreakpoint next then some (s.stop next .breakpoint)
      else s.runFrom next (.stepOut depth) fuel
  | .ok _ => s.runFrom line .next fuel

/-- Goes on as asked. Only a session at a line can go on; one that is over terminates again. -/
def resume (s : Session) (pending : Pending) (fuel : Nat) :
    Option (Except Error Unit × Session) :=
  match s.state with
  | .idle => some (.error .notLaunched, s)
  | .terminated | .failed _ => some (.ok (), s.terminate)
  | .running line | .waiting line _ =>
    let s? := match pending with
      | .next => s.stepOver line fuel
      | _ => s.runFrom line pending fuel
    s?.map (.ok (), ·)

def run (s : Session) (fuel : Nat) : Option (Except Error Unit × Session) :=
  s.resume .run fuel

def stepIn (s : Session) (fuel : Nat) : Option (Except Error Unit × Session) :=
  s.resume .stepIn fuel

/-- Runs until the caller of the innermost frame has control again. -/
def stepOut (s : Session) (fuel : Nat) : Option (Except Error Unit × Session) :=
  s.resume (.stepOut (s.stepper.stack.depth - 1)) fuel

def next (s : Session) (fuel : Nat) : Option (Except Error Unit × Session) := s.resume .next fuel

/-- Starts a program that has been loaded. -/
def begin (s : Session) (l : Launch) (fuel : Nat) : Option (Except Error Unit × Session) :=
  let s := { s with sourceFile := some l.program }
  if l.stopOnEntry then some (.ok (), s.stop 0 .entry)
  else if s.hitsBreakpoint 0 then some (.ok (), s.stop 0 .breakpoint)
  else { s with state := .running 0 }.run fuel

def launch (s : Session) (assembler : Assembler) (readText : ReadText) (l : Launch) (fuel : Nat) :
    Option (Except Error Unit × Session) :=
  if s.state ≠ .idle then some (.error .alreadyLaunched, s)
  else if Path.extension? l.program ≠ some sourceExtension then
    some (.error (.unsupportedSource l.program), s.terminate)
  else match readText l.program with
    | .error e => some (.error (.unreadable l.program e), s.terminate)
    | .ok source => match s.stepper.launch (assembler source l.assembly) l.machine with
      | (.error e, stepper) => some (.error (.launch e), { s with stepper }.terminate)
      | (.ok [], stepper) => { s with stepper }.begin l fuel
      | (.ok diagnostics, stepper) =>
        let report (s : Session) (d : Diagnostic) := s.emit (.output .stderr (d.display ++ "\n"))
        some (.ok (), (diagnostics.foldl report { s with stepper }).terminate)

/-- Replaces the breakpoints of a file, which is read to see where something is on a line. -/
def setBreakpoints (s : Session) (readText : ReadText) (path : String) (lines : List Nat) :
    List Breakpoint × Session :=
  let (answer, breakpoints) := s.breakpoints.set path (readText path).toOption lines
  (answer, { s with breakpoints })

/-- Gives the program the line it waits for, or looks a register or flag up. -/
def evaluate (s : Session) (expression : String) (context : EvaluateContext) (fuel : Nat) :
    Option (Except Error Evaluation × Session) :=
  match s.state, context with
  | .waiting line pending, .repl =>
    let s := { s with stepper := s.stepper.setInput expression, state := .running line }
    (s.resume pending fuel).map fun (result, s) => (result.map fun _ => .inputAccepted, s)
  | .idle, _ => some (.error (.unavailable expression), s)
  | _, _ => match Variable.find? s.stepper.machine expression with
    | some v => some (.ok (.value v), s)
    | none => some (.error (.unavailable expression), s)

/-- The frames innermost first, each with its number from the outside. The innermost is shown at the
current line and the others at the line of their call. -/
def frameViews (current : Nat) (stack : CallStack) : List FrameView :=
  match stack.frames with
  | [] => []
  | innermost :: callers =>
    ⟨callers.length, innermost.subroutine, current⟩ ::
      callers.mapIdx fun i f => ⟨callers.length - 1 - i, f.subroutine, f.callLine.getD current⟩

/-- A part of the frames; no number of levels, or zero, means all of them. -/
def stackTrace (s : Session) (start : Nat) (levels : Option Nat) : StackTrace :=
  match s.currentLine with
  | none => {}
  | some line =>
    let frames := (frameViews line s.stepper.stack).drop start
    let frames := match levels with
      | none | some 0 => frames
      | some n => frames.take n
    { frames, totalFrames := s.stepper.stack.depth }

def variablesIn (s : Session) (reference : Int) : List Variable :=
  if reference ≠ registersReference ∨ s.state = .idle then [] else Variable.all s.stepper.machine

end Session

end Comet
