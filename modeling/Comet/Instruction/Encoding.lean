import Comet.Instruction.Mnemonic

namespace Comet

/-- Number of a register as an instruction names it. -/
abbrev RegisterField := Fin 16

/-- Register fields are counted modulo sixteen. -/
instance RegisterField.neZero : @NeZero Nat Zero.ofOfNat0 16 := ⟨Nat.succ_ne_zero 15⟩

structure Instruction where
  mnemonic : Mnemonic
  r : RegisterField
  x : RegisterField
  /-- The second word, if the instruction has one. -/
  adr : Option Word
  deriving DecidableEq, Repr

/-- What executing an instruction means to a debugger. -/
inductive InstructionKind
  | call
  | ret
  /-- Reads a line from the console. -/
  | input
  | other
  deriving DecidableEq, Repr

/-- Supervisor call that reads a line. -/
def svcInput : Word := 1

/-- Supervisor call that writes a line. -/
def svcOutput : Word := 2

namespace Instruction

/-- The first word of an instruction. -/
def encode (opcode : UInt8) (r x : RegisterField) : Word :=
  .ofNat (opcode.toNat * 256 + r.val * 16 + x.val)

def opcodeField (word : Word) : UInt8 := .ofNat (word.toNat / 256)

def rField (word : Word) : RegisterField := .ofNat 16 (word.toNat / 16)

def xField (word : Word) : RegisterField := .ofNat 16 word.toNat

/-- The instruction whose first word is `word`, where `next` follows it in memory. -/
def decode (word next : Word) : Option Instruction :=
  let r := rField word
  let x := xField word
  match Mnemonic.ofOpcode? (opcodeField word) with
  | some m => some ⟨m, r, x, if m.form.hasAddress then some next else none⟩
  | none => (Mnemonic.ofRegisterOpcode? (opcodeField word)).map fun m => ⟨m, r, x, none⟩

/-- The number of words of the instruction. -/
def size (i : Instruction) : Word := if i.adr.isSome then 2 else 1

/-- The base address, before the index register is added. -/
def base (i : Instruction) : Word := i.adr.getD 0

/-- An input is recognised by its address word alone, whatever its index register holds. -/
def kind (i : Instruction) : InstructionKind :=
  match i.mnemonic with
  | .call => .call
  | .ret => .ret
  | .svc => if i.adr = some svcInput then .input else .other
  | _ => .other

theorem opcodeField_encode (opcode : UInt8) (r x : RegisterField) :
    opcodeField (encode opcode r x) = opcode := by
  apply UInt8.toNat_inj.mp
  have := opcode.toNat_lt
  simp only [opcodeField, encode, UInt16.toNat_ofNat', UInt8.toNat_ofNat']
  omega

theorem rField_encode (opcode : UInt8) (r x : RegisterField) : rField (encode opcode r x) = r := by
  apply Fin.ext
  have := opcode.toNat_lt
  simp only [rField, encode, UInt16.toNat_ofNat', Fin.val_ofNat]
  omega

theorem xField_encode (opcode : UInt8) (r x : RegisterField) : xField (encode opcode r x) = x := by
  apply Fin.ext
  have := opcode.toNat_lt
  simp only [xField, encode, UInt16.toNat_ofNat', Fin.val_ofNat]
  omega

end Instruction

end Comet
