import Comet.Word

namespace Comet

inductive Arithmetic
  | adda | suba | addl | subl
  deriving DecidableEq, Repr

inductive Logic
  | and | or | xor
  deriving DecidableEq, Repr

inductive Comparison
  | cpa | cpl
  deriving DecidableEq, Repr

inductive Shift
  | sla | sra | sll | srl
  deriving DecidableEq, Repr

inductive Jump
  | jmi | jnz | jze | jump | jpl | jov
  deriving DecidableEq, Repr

inductive Mnemonic
  | nop
  | ld
  | st
  | lad
  | arithmetic (op : Arithmetic)
  | logic (op : Logic)
  | compare (op : Comparison)
  | shift (op : Shift)
  | jump (op : Jump)
  | push
  | pop
  | call
  | ret
  | svc
  deriving DecidableEq, Repr

/-- The operands an instruction takes in source text. -/
inductive OperandForm
  | empty
  /-- `r` -/
  | register
  /-- `r,adr[,x]` -/
  | registerAddress
  /-- `r,adr[,x]` or `r1,r2` -/
  | registerAddressOrRegister
  /-- `adr[,x]` -/
  | address
  deriving DecidableEq, Repr

/-- Whether the instruction has a second word, the address, when it is written with its own
operation code. -/
def OperandForm.hasAddress : OperandForm → Bool
  | empty | register => false
  | registerAddress | registerAddressOrRegister | address => true

namespace Mnemonic

/-- What the instruction table says of one mnemonic. -/
structure Row where
  name : String
  opcode : UInt8
  /-- The operation code of the form whose second operand is a register. -/
  registerOpcode : Option UInt8
  form : OperandForm

def row : Mnemonic → Row
  | nop => ⟨"NOP", 0x00, none, .empty⟩
  | ld => ⟨"LD", 0x10, some 0x14, .registerAddressOrRegister⟩
  | st => ⟨"ST", 0x11, none, .registerAddress⟩
  | lad => ⟨"LAD", 0x12, none, .registerAddress⟩
  | arithmetic .adda => ⟨"ADDA", 0x20, some 0x24, .registerAddressOrRegister⟩
  | arithmetic .suba => ⟨"SUBA", 0x21, some 0x25, .registerAddressOrRegister⟩
  | arithmetic .addl => ⟨"ADDL", 0x22, some 0x26, .registerAddressOrRegister⟩
  | arithmetic .subl => ⟨"SUBL", 0x23, some 0x27, .registerAddressOrRegister⟩
  | logic .and => ⟨"AND", 0x30, some 0x34, .registerAddressOrRegister⟩
  | logic .or => ⟨"OR", 0x31, some 0x35, .registerAddressOrRegister⟩
  | logic .xor => ⟨"XOR", 0x32, some 0x36, .registerAddressOrRegister⟩
  | compare .cpa => ⟨"CPA", 0x40, some 0x44, .registerAddressOrRegister⟩
  | compare .cpl => ⟨"CPL", 0x41, some 0x45, .registerAddressOrRegister⟩
  | shift .sla => ⟨"SLA", 0x50, none, .registerAddress⟩
  | shift .sra => ⟨"SRA", 0x51, none, .registerAddress⟩
  | shift .sll => ⟨"SLL", 0x52, none, .registerAddress⟩
  | shift .srl => ⟨"SRL", 0x53, none, .registerAddress⟩
  | jump .jmi => ⟨"JMI", 0x61, none, .address⟩
  | jump .jnz => ⟨"JNZ", 0x62, none, .address⟩
  | jump .jze => ⟨"JZE", 0x63, none, .address⟩
  | jump .jump => ⟨"JUMP", 0x64, none, .address⟩
  | jump .jpl => ⟨"JPL", 0x65, none, .address⟩
  | jump .jov => ⟨"JOV", 0x66, none, .address⟩
  | push => ⟨"PUSH", 0x70, none, .address⟩
  | pop => ⟨"POP", 0x71, none, .register⟩
  | call => ⟨"CALL", 0x80, none, .address⟩
  | ret => ⟨"RET", 0x81, none, .empty⟩
  | svc => ⟨"SVC", 0xF0, none, .address⟩

def name (m : Mnemonic) : String := m.row.name

def opcode (m : Mnemonic) : UInt8 := m.row.opcode

def registerOpcode (m : Mnemonic) : Option UInt8 := m.row.registerOpcode

def form (m : Mnemonic) : OperandForm := m.row.form

def all : List Mnemonic :=
  [nop, ld, st, lad, arithmetic .adda, arithmetic .suba, arithmetic .addl, arithmetic .subl,
    logic .and, logic .or, logic .xor, compare .cpa, compare .cpl,
    shift .sla, shift .sra, shift .sll, shift .srl,
    jump .jmi, jump .jnz, jump .jze, jump .jump, jump .jpl, jump .jov,
    push, pop, call, ret, svc]

theorem mem_all (m : Mnemonic) : m ∈ all := by
  rcases m with _ | _ | _ | _ | op | op | op | op | op | _ | _ | _ | _ | _ <;>
    first
    | decide
    | cases op <;> decide

def ofName? (text : String) : Option Mnemonic := all.find? (·.name == text)

def ofOpcode? (code : UInt8) : Option Mnemonic := all.find? (·.opcode == code)

def ofRegisterOpcode? (code : UInt8) : Option Mnemonic := all.find? (·.registerOpcode == some code)

end Mnemonic

end Comet
