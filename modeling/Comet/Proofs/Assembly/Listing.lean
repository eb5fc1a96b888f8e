import Comet.Assembly.Layout
import Comet.Text.Lines

/-! The listing of a source text, as an assembler prints it: what each line denotes, read by
itself, and the value of the location counter there. Labels and literals are still names in it. -/
namespace Comet

def Cell.literal? : Cell → Option (List Word)
  | .literal words => some words
  | _ => none

namespace Assembly

/-- An instruction as it is written. Its second word may be a label or a literal. -/
structure SymbolicInstruction where
  mnemonic : Mnemonic
  r : RegisterField
  x : RegisterField
  operand : Option Cell
  deriving DecidableEq, Repr

namespace SymbolicInstruction

-- Only an instruction with two register operands can be without its address.
def opcode (i : SymbolicInstruction) : UInt8 :=
  match i.operand, i.mnemonic.registerOpcode with
  | none, some code => code
  | _, _ => i.mnemonic.opcode

def cells (i : SymbolicInstruction) : List Cell :=
  .value (Instruction.encode i.opcode i.r i.x) :: i.operand.toList

/-- The names of the registers. -/
def registerNames : List (String × RegisterField) :=
  [("GR0", 0), ("GR1", 1), ("GR2", 2), ("GR3", 3), ("GR4", 4), ("GR5", 5), ("GR6", 6), ("GR7", 7),
    ("GR8", 8)]

section reading

variable (options : AssemblyOptions) (m : Mnemonic)

/-- The register of this name. It may be that `GR8` is not to be used. -/
def register? (text : String) : Option RegisterField := do
  let r ← registerNames.lookup text
  if r = 8 ∧ options.useGr8 = false then none else some r

/-- The index register of this name, which `GR0` cannot be. Its field is zero if there is none. -/
def index? : Option String → Option RegisterField
  | none => some 0
  | some text => (register? options text).filter (· ≠ 0)

def readAddressed? (r : RegisterField) (adr : String) (index : Option String) :
    Option SymbolicInstruction := do
  let x ← index? options index
  let operand ← (addressOperand adr.toList).toOption
  return ⟨m, r, x, some operand⟩

/-- The instruction with these operands, if its form takes them. -/
def read? (operands : List String) : Option SymbolicInstruction :=
  match m.form, operands with
  | .empty, [] => some ⟨m, 0, 0, none⟩
  | .register, [r] => do return ⟨m, ← register? options r, 0, none⟩
  | .registerAddress, [r, adr] => do readAddressed? options m (← register? options r) adr none
  | .registerAddress, [r, adr, x] => do
    readAddressed? options m (← register? options r) adr (some x)
  -- What looks like a register is never read as an address.
  | .registerAddressOrRegister, [r, second] => do
    let r ← register? options r
    if looksLikeRegister second.toList then return ⟨m, r, ← register? options second, none⟩
    readAddressed? options m r second none
  | .registerAddressOrRegister, [r, adr, x] => do
    readAddressed? options m (← register? options r) adr (some x)
  | .address, [adr] => readAddressed? options m 0 adr none
  | .address, [adr, x] => readAddressed? options m 0 adr (some x)
  | _, _ => none

end reading

def save (r : RegisterField) : SymbolicInstruction := ⟨.push, 0, r, some (.value 0)⟩

def restore (r : RegisterField) : SymbolicInstruction := ⟨.pop, r, 0, none⟩

/-- `IN` and `OUT`, around the supervisor call that they are for. -/
def transfer (service : Word) (buffer length : Cell) : List SymbolicInstruction :=
  [save 1, save 2, ⟨.lad, 1, 0, some buffer⟩, ⟨.lad, 2, 0, some length⟩,
    ⟨.svc, 0, 0, some (.value service)⟩, restore 2, restore 1]

end SymbolicInstruction

/-- The names of the operations that a statement within a block may have. -/
def operationNames : List (String × Operation) :=
  [("DS", .space), ("DC", .constants), ("IN", .transfer 1), ("OUT", .transfer 2),
    ("RPUSH", .save), ("RPOP", .restore),
    ("NOP", .machine .nop), ("LD", .machine .ld), ("ST", .machine .st), ("LAD", .machine .lad),
    ("ADDA", .machine (.arithmetic .adda)), ("SUBA", .machine (.arithmetic .suba)),
    ("ADDL", .machine (.arithmetic .addl)), ("SUBL", .machine (.arithmetic .subl)),
    ("AND", .machine (.logic .and)), ("OR", .machine (.logic .or)), ("XOR", .machine (.logic .xor)),
    ("CPA", .machine (.compare .cpa)), ("CPL", .machine (.compare .cpl)),
    ("SLA", .machine (.shift .sla)), ("SRA", .machine (.shift .sra)),
    ("SLL", .machine (.shift .sll)), ("SRL", .machine (.shift .srl)),
    ("JMI", .machine (.jump .jmi)), ("JNZ", .machine (.jump .jnz)), ("JZE", .machine (.jump .jze)),
    ("JUMP", .machine (.jump .jump)), ("JPL", .machine (.jump .jpl)),
    ("JOV", .machine (.jump .jov)), ("PUSH", .machine .push), ("POP", .machine .pop),
    ("CALL", .machine .call), ("RET", .machine .ret), ("SVC", .machine .svc)]

/-- What a statement within a block puts into memory. -/
inductive Content
  | data (cells : List Cell)
  | code (instructions : List SymbolicInstruction)
  deriving DecidableEq, Repr

namespace Content

open SymbolicInstruction

def read? (options : AssemblyOptions) (name : String) (operands : List String) :
    Option Content := do
  match ← operationNames.lookup name, operands with
  | .space, [text] =>
    let size ← Text.unsigned? 10 0x10000 text.toList
    return .data (.replicate size (.value 0))
  | .constants, _ :: _ => return .data (← (Pass.constants operands).toOption)
  | .transfer service, [buffer, length] =>
    let buffer ← (addressOperand buffer.toList).toOption
    let length ← (addressOperand length.toList).toOption
    return .code (transfer service buffer length)
  | .save, [] => return .code (Pass.savedRegisters.map save)
  | .restore, [] => return .code (Pass.savedRegisters.reverse.map restore)
  | .machine m, _ => return .code [← SymbolicInstruction.read? options m operands]
  | _, _ => none

def cells : Content → List Cell
  | data cells => cells
  | code instructions => instructions.flatMap (·.cells)

end Content

/-- What a line of source text is for. -/
inductive Row
  | start (name : String) (entryLabel : Option String)
  | body (label : Option String) (content : Content)
  | finish
  deriving DecidableEq, Repr

namespace Row

def ofStatement? (options : AssemblyOptions) (s : Statement) : Option Row :=
  match s.opcode with
  | "START" =>
    match s.label, s.operands with
    | some name, [] => some (.start name none)
    | some name, [entry] => if isLabel entry.toList then some (.start name (some entry)) else none
    | _, _ => none
  | "END" => if s.label = none ∧ s.operands = [] then some .finish else none
  | name => (Content.read? options name s.operands).map (.body s.label)

/-- A line may also be blank, or not be understood. -/
def ofLine? (options : AssemblyOptions) (text : List Char) : Option (Option Row) :=
  match Statement.ofLine text with
  | .ok none => some none
  | .ok (some s) => (ofStatement? options s).map some
  | .error _ => none

end Row

/-- A line within a block, with the location counter where it stands. -/
structure ListingLine where
  line : Nat
  location : Nat
  label : Option String
  content : Content
  deriving DecidableEq, Repr

/-- Words one behind the other from a location on, each run with its own. -/
def placeWords (location : Nat) : List (List Word) → List (List Word × Nat)
  | [] => []
  | words :: rest => (words, location) :: placeWords (location + words.length) rest

/-- A block from START to END. -/
structure ListingBlock where
  name : String
  entryLabel : Option String
  origin : Nat
  body : List ListingLine := []
  deriving DecidableEq, Repr

namespace ListingBlock

def statementCells (b : ListingBlock) : List Cell := b.body.flatMap (·.content.cells)

/-- The literals of the block, each once, in the order of their first use. -/
def literals (b : ListingBlock) : List (List Word) :=
  (b.statementCells.filterMap Cell.literal?).eraseDups

/-- The literals stand behind the statements. -/
def pool (b : ListingBlock) : List (List Word × Nat) :=
  placeWords (b.origin + b.statementCells.length) b.literals

def addLine (b : ListingBlock) (l : ListingLine) : ListingBlock := { b with body := b.body ++ [l] }

end ListingBlock

/-- The blocks of the lines from a location on, where a block may already be open. -/
def listFrom (options : AssemblyOptions) (opened : Option ListingBlock) (location line : Nat) :
    List (List Char) → Option (List ListingBlock)
  | [] => if opened.isNone then some [] else none
  | text :: rest => do
    match ← Row.ofLine? options text, opened with
    | none, _ => listFrom options opened location (line + 1) rest
    -- A START takes no words, and an END those of the literals of its block.
    | some (.start name entryLabel), none =>
      listFrom options (some ⟨name, entryLabel, location, []⟩) location (line + 1) rest
    | some (.body label content), some b =>
      listFrom options (some (b.addLine ⟨line, location, label, content⟩))
        (location + content.cells.length) (line + 1) rest
    | some .finish, some b =>
      return b :: (← listFrom options none (location + b.literals.flatten.length) (line + 1) rest)
    | _, _ => none

end Assembly

/-- The listing of a source text that is made of blocks. -/
def listing (source : String) (options : AssemblyOptions) : Option (List Assembly.ListingBlock) :=
  Assembly.listFrom options none 0 0 (Text.lines source.toList)

namespace Assembly

/-- One word of memory as the listing has it. -/
structure Slot where
  block : ListingBlock
  cell : Cell
  /-- The line and the instruction of which it is the first word. -/
  first : Option (Nat × SymbolicInstruction) := none
  deriving DecidableEq, Repr

section slots

variable (b : ListingBlock) (line : Nat)

def SymbolicInstruction.slots (i : SymbolicInstruction) : List Slot :=
  ⟨b, .value (Instruction.encode i.opcode i.r i.x), some (line, i)⟩ ::
    i.operand.toList.map fun c => ⟨b, c, none⟩

def Content.slots : Content → List Slot
  | .data cells => cells.map fun c => ⟨b, c, none⟩
  | .code instructions => instructions.flatMap (·.slots b line)

def ListingBlock.slots : List Slot :=
  b.body.flatMap (fun l => l.content.slots b l.line) ++
    b.literals.flatten.map fun w => ⟨b, .value w, none⟩

end slots

/-- The words of all blocks, without a gap. -/
def image (blocks : List ListingBlock) : List Slot := blocks.flatMap (·.slots)

/-- What a name means within a block: the location of a label of the block, or else the entry of
the block of that name. If labels have no scope, those of all blocks count. -/
inductive Names (options : AssemblyOptions) (blocks : List ListingBlock) :
    ListingBlock → String → Nat → Prop
  -- A label of the block hides all others of its name.
  | own {b : ListingBlock} {l : ListingLine} {name : String} (hl : l ∈ b.body)
      (hlabel : l.label = some name) : Names options blocks b name l.location
  | shared {b c : ListingBlock} {l : ListingLine} {name : String}
      (hscope : options.labelScope = false) (hc : c ∈ blocks) (hl : l ∈ c.body)
      (hlabel : l.label = some name) : Names options blocks b name l.location
  -- The name of a block stands for where the block is entered.
  | origin {b c : ListingBlock} (hown : ∀ l ∈ b.body, l.label ≠ some c.name) (hc : c ∈ blocks)
      (hentry : c.entryLabel = none) : Names options blocks b c.name c.origin
  | entry {b c : ListingBlock} {label : String} {a : Nat}
      (hown : ∀ l ∈ b.body, l.label ≠ some c.name) (hc : c ∈ blocks)
      (hentry : c.entryLabel = some label) (hlabel : Names options blocks c label a) :
      Names options blocks b c.name a

/-- The word is what the cell stands for in the block. A label has one location and a literal one
place in the pool of the block, and the word is its address. -/
def Denotes (options : AssemblyOptions) (blocks : List ListingBlock) (b : ListingBlock) :
    Cell → Word → Prop
  | .value v, w => w = v
  | .label name, w => ∀ a, Names options blocks b name a ↔ a = w.toNat
  | .literal words, w => ∀ a, (words, a) ∈ b.pool ↔ a = w.toNat

end Assembly

end Comet
