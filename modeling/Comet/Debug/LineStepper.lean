import Comet.Debug.CallStack
import Comet.Machine.Console

/-! Stepping by source lines. A START line takes no instruction; any other line takes the one at the
program counter. The stepper keeps the call stack by watching calls and returns, and holds at most
one line of input for the program. -/
namespace Comet

inductive StepError
  | fault (f : Fault)
  | unmappedCallTarget (address : Word)
  | notLaunched
  | noEntrySubroutine
  | noProgram
  deriving DecidableEq, Repr

def StepError.message : StepError → String
  | fault f => s!"runtime fault: {f.message}"
  | unmappedCallTarget address =>
    s!"CALL jumped to #{address.hex}, which is not a subroutine entry"
  | notLaunched => "no program has been launched"
  | noEntrySubroutine => "the program declares no subroutine to start from"
  | noProgram => "the compiler produced no program"

/-- What leaving a line comes to. The next line is missing where no line is known. -/
inductive LineStep
  | moved (next : Option Nat)
  | ended (next : Option Nat)
  /-- The instruction wants a line of input, and has not been executed. -/
  | waits (line : Nat)
  deriving DecidableEq, Repr

structure LineStepper where
  machine : Machine := {}
  program : Option Program := none
  stack : CallStack := {}
  /-- The line that the program reads next. -/
  input : Option String := none
  output : Array String := #[]
  deriving DecidableEq

namespace LineStepper

/-- Loads a program, unless there are diagnostics, which are handed back. -/
def launch (s : LineStepper) (compiled : Assembled) (options : MachineOptions) :
    Except StepError (List Diagnostic) × LineStepper :=
  if !compiled.diagnostics.isEmpty then (.ok compiled.diagnostics, s)
  else match compiled.program with
    | none => (.error .noProgram, s)
    | some program => match program.debug.entrySubroutine with
      | none => (.error .noEntrySubroutine, s)
      | some entry => match Machine.load program options with
        | .error f => (.error (.fault f), s)
        | .ok machine =>
          (.ok [], { machine, program := some program, stack := .start entry.name })

def isEntryLine (s : LineStepper) (line : Nat) : Bool :=
  match s.program with
  | some p => p.debug.isEntryLine line
  | none => false

/-- What leaving the line will execute, if anything. -/
def peek (s : LineStepper) (line : Nat) : Except StepError (Option InstructionKind) :=
  if s.program.isNone then .error .notLaunched
  else if s.isEntryLine line then .ok none
  else match s.machine.nextKind with
    | .ok kind => .ok (some kind)
    | .error f => .error (.fault f)

/-- Executes one instruction. Whatever it is, it takes the line of input. -/
def execute (s : LineStepper) : Except Fault Bool × LineStepper :=
  let c := s.machine.stepOn LineQueue.console { input := s.input.toList, output := s.output }
  (c.result, { s with machine := c.machine, input := none, output := c.console.output })

/-- After an instruction that was a call, execution must be at the entry of a subroutine. -/
def settle (s : LineStepper) (debug : DebugMap) (line : Nat) (kind : InstructionKind)
    (halted : Bool) : Except StepError LineStep × LineStepper :=
  let answer (next : Option Nat) : LineStep := if halted then .ended next else .moved next
  match kind with
  | .call => match debug.subroutineAt s.machine.pr with
    | none => (.error (.unmappedCallTarget s.machine.pr), s)
    | some callee =>
      (.ok (answer (some callee.startLine)), { s with stack := s.stack.enter line callee.name })
  | .ret =>
    let stack := if halted then s.stack else s.stack.leave.2
    (.ok (answer (debug.lineAt s.machine.pr)), { s with stack })
  | _ => (.ok (answer (debug.lineAt s.machine.pr)), s)

def stepLine (s : LineStepper) (line : Nat) : Except StepError LineStep × LineStepper :=
  match s.program with
  | none => (.error .notLaunched, s)
  | some p =>
    if p.debug.isEntryLine line then (.ok (.moved (some (line + 1))), s)
    else match s.machine.nextKind with
      | .error f => (.error (.fault f), s)
      | .ok kind =>
        if kind = .input ∧ s.input.isNone then (.ok (.waits line), s)
        else match s.execute with
          | (.error f, s) => (.error (.fault f), s)
          | (.ok halted, s) => s.settle p.debug line kind halted

/-- A line given while another is still unread takes its place. -/
def setInput (s : LineStepper) (text : String) : LineStepper := { s with input := some text }

/-- The lines the program has written, and the stepper without them. -/
def takeOutput (s : LineStepper) : List String × LineStepper :=
  (s.output.toList, { s with output := #[] })

end LineStepper

end Comet
