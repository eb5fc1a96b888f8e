import Comet.Instruction.Encoding
import Comet.Machine.Memory
import Comet.Program

namespace Comet

structure Flags where
  overflow : Bool := false
  sign : Bool := false
  zero : Bool := false
  deriving DecidableEq, Repr

/-- Why the machine cannot go on. -/
inductive Fault
  | invalidInstruction (address word : Word)
  | invalidRegister (address : Word) (register : RegisterField)
  | unknownSupervisorCall (address code : Word)
  | programTooLarge (size : Nat)
  deriving DecidableEq, Repr

def Fault.message : Fault → String
  | invalidInstruction address word => s!"invalid instruction #{word.hex} at #{address.hex}"
  | invalidRegister address register => s!"invalid register GR{register.val} at #{address.hex}"
  | unknownSupervisorCall address code => s!"unknown SVC code {code.toNat} at #{address.hex}"
  | programTooLarge size => s!"program of {size} words does not fit in memory"

structure Machine where
  memory : Memory := .zero
  gr : Vector Word 8 := .replicate 8 0
  /-- The stack grows downwards from the end of memory; zero means that it is empty. -/
  sp : Word := 0
  pr : Word := 0
  flags : Flags := {}
  options : MachineOptions := {}
  halted : Bool := false
  deriving DecidableEq

namespace Machine

/-- Loads a program into a machine that has forgotten everything else. -/
def load (p : Program) (options : MachineOptions) : Except Fault Machine :=
  if memorySize < p.code.length then .error (.programTooLarge p.code.length)
  else .ok { memory := .load p.code, pr := p.entry, options }

def register (m : Machine) (r : RegisterField) : Except Fault Word :=
  if h : r.val < 8 then .ok m.gr[r.val]
  else if r = 8 ∧ m.options.gr8IsSp then .ok m.sp
  else .error (.invalidRegister m.pr r)

def setRegister (m : Machine) (r : RegisterField) (w : Word) : Except Fault Machine :=
  if h : r.val < 8 then .ok { m with gr := m.gr.set r.val w }
  else if r = 8 ∧ m.options.gr8IsSp then .ok { m with sp := w }
  else .error (.invalidRegister m.pr r)

/-- Where the supervisor finds the characters of a line, or puts them: `GR1`. -/
def bufferAddress (m : Machine) : Word := m.gr.get ⟨1, by decide⟩

/-- Where the supervisor finds the length of a line, or puts it: `GR2`. -/
def lengthAddress (m : Machine) : Word := m.gr.get ⟨2, by decide⟩

/-- The flags that tell of a result. -/
def flagsOf (result : Word) (overflow : Bool) : Flags :=
  { overflow, sign := Word.isNegative result, zero := result = 0 }

/-- Puts a result into a register and sets the flags by it. -/
def setResult (m : Machine) (r : RegisterField) (result : Word) (overflow : Bool) :
    Except Fault Machine := do
  return { ← m.setRegister r result with flags := flagsOf result overflow }

def read (m : Machine) (address : Word) : Word := m.memory.read address

def write (m : Machine) (address w : Word) : Machine :=
  { m with memory := m.memory.write address w }

def push (m : Machine) (w : Word) : Machine := { m.write (m.sp - 1) w with sp := m.sp - 1 }

/-- The word on top of the stack, and the machine without it. -/
def pop (m : Machine) : Word × Machine := (m.read m.sp, { m with sp := m.sp + 1 })

/-- The instruction at an address. -/
def instructionAt (m : Machine) (address : Word) : Except Fault Instruction :=
  match Instruction.decode (m.read address) (m.read (address + 1)) with
  | some i => .ok i
  | none => .error (.invalidInstruction address (m.read address))

/-- What the next instruction means to a debugger. -/
def nextKind (m : Machine) : Except Fault InstructionKind := (m.instructionAt m.pr).map (·.kind)

end Machine

end Comet
