import Comet.Machine.Operation
import Comet.Machine.State

/-! One instruction of the machine. Reading a line is a step of two halves: the machine says that it
wants a line, and goes on once it is given one or told that there are no more. -/
namespace Comet

/-- What a step comes to. -/
inductive Step
  | done (m : Machine)
  /-- A line is wanted; `m.accept` goes on with it. -/
  | reads (m : Machine)
  | writes (text : String) (m : Machine)
  /-- The machine is the one left behind by the faulting instruction. -/
  | fault (f : Fault) (m : Machine)

/-- The most characters of a line that are stored. -/
def maxInput : Nat := 256

namespace Machine

/-- The address word plus the index register; index field zero means that there is none. -/
def effectiveAddress (m : Machine) (i : Instruction) : Except Fault Word :=
  if i.x = 0 then .ok i.base else (m.register i.x).map (i.base + ·)

/-- The second operand: a word of memory, or a register if the instruction has no address. -/
def operand (m : Machine) (i : Instruction) : Except Fault Word :=
  if i.adr.isSome then (m.effectiveAddress i).map m.read else m.register i.x

/-- Stores a line at the address in `GR1` and its length at the address in `GR2`; at the end of
input the length is all ones and nothing is stored. -/
def accept (m : Machine) (line : Option String) : Machine :=
  match line with
  | some text =>
    let ws := (text.toList.take maxInput).map Word.ofChar
    let memory := m.memory.writeAll m.bufferAddress ws
    { m with memory := memory.write m.lengthAddress (.ofNat ws.length) }
  | none => m.write m.lengthAddress 0xFFFF

/-- The text at the address in `GR1`, of the length at the address in `GR2`. -/
def outputText (m : Machine) : String :=
  .ofList ((m.memory.readAll m.bufferAddress (m.read m.lengthAddress).toNat).map Word.toChar)

/-- A step that leaves the machine as it is when it faults. -/
def attempt (m : Machine) : Except Fault Machine → Step
  | .ok m' => .done m'
  | .error f => .fault f m

/-- Carries out an instruction that was found at the address `origin`, after the program counter
has moved on. An invalid register is reported at the program counter, other faults at the
instruction. -/
def execute (m : Machine) (i : Instruction) (origin : Word) : Step :=
  match i.mnemonic with
  | .nop => .done m
  | .ld => m.attempt do
    let w ← m.operand i
    m.setResult i.r w false
  | .st => m.attempt do
    let address ← m.effectiveAddress i
    return m.write address (← m.register i.r)
  | .lad => m.attempt do
    m.setRegister i.r (← m.effectiveAddress i)
  | .arithmetic op => m.attempt do
    let a ← m.register i.r
    let b ← m.operand i
    m.setResult i.r (op.apply a b).1 (op.apply a b).2
  | .logic op => m.attempt do
    let a ← m.register i.r
    let b ← m.operand i
    m.setResult i.r (op.apply a b) false
  | .compare op => m.attempt do
    let a ← m.register i.r
    let b ← m.operand i
    let order := op.apply a b
    return { m with flags := { overflow := false, sign := order.isLT, zero := order.isEq } }
  | .shift op => m.attempt do
    let w ← m.register i.r
    let count ← m.effectiveAddress i
    m.setResult i.r (op.apply w count).1 (op.apply w count).2
  | .jump op =>
    if op.taken m.flags.overflow m.flags.sign m.flags.zero then
      m.attempt do return { m with pr := ← m.effectiveAddress i }
    else .done m
  | .push => m.attempt do
    return m.push (← m.effectiveAddress i)
  | .pop =>
    let (w, m) := m.pop
    m.attempt (m.setRegister i.r w)
  | .call => m.attempt do
    let target ← m.effectiveAddress i
    return { m.push m.pr with pr := target }
  | .ret =>
    if m.sp = 0 then .done { m with halted := true }
    else
      let (w, m) := m.pop
      .done { m with pr := w }
  | .svc =>
    match m.effectiveAddress i with
    | .error f => .fault f m
    | .ok code =>
      if code = svcInput then .reads m
      else if code = svcOutput then .writes m.outputText m
      else .fault (.unknownSupervisorCall origin code) m

/-- Executes the instruction at the program counter. A halted machine does nothing. -/
def step (m : Machine) : Step :=
  if m.halted then .done m
  else match m.instructionAt m.pr with
    | .error f => .fault f m
    | .ok i => { m with pr := m.pr + i.size }.execute i m.pr

theorem step_of_instructionAt {m : Machine} {i : Instruction} (hm : m.halted = false)
    (hi : m.instructionAt m.pr = .ok i) :
    m.step = { m with pr := m.pr + i.size }.execute i m.pr := by
  simp [step, hm, hi]

theorem step_of_no_instruction {m : Machine} {f : Fault} (hm : m.halted = false)
    (hi : m.instructionAt m.pr = .error f) : m.step = .fault f m := by
  simp [step, hm, hi]

end Machine

end Comet
