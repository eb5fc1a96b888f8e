import Comet.Assembly.Constant
import Comet.Assembly.Statement
import Comet.Assembly.Symbols
import Comet.Instruction.Encoding
import Comet.Program

/-! Laying out a program: each statement gets its address and its cells, while labels are still
being defined. A statement that is refused leaves behind what it had done before: its label stays
defined, its literals stay in the block's pool, and an END has closed its block. -/
namespace Comet

namespace Assembly

/-- Cells that one instruction or one data statement puts into memory. -/
structure Piece where
  address : Word
  line : Nat
  cells : List Cell
  isInstruction : Bool
  deriving DecidableEq, Repr

/-- A block from its START on. -/
structure Block where
  name : String
  startLine : Nat
  origin : Word
  /-- The label at which execution starts, if it is not the origin. -/
  entryLabel : Option String
  labels : Symbols := []
  pieces : Array Piece := #[]
  /-- The literals used so far, each once, in the order of their first use. -/
  literals : List (List Word) := []
  deriving DecidableEq, Repr

/-- A block after its END, where its literals have been put. -/
structure ClosedBlock extends Block where
  entry : Word
  pool : List (List Word × Word)
  deriving DecidableEq, Repr

structure Layout where
  globals : Symbols := []
  opened : Option Block := none
  closed : Array ClosedBlock := #[]
  /-- A START has been accepted, whatever became of its block. -/
  started : Bool := false
  /-- The next free address; `memorySize` when memory is full. -/
  location : Nat := 0
  diagnostics : Array Diagnostic := #[]
  deriving DecidableEq, Repr

/-- A step of the layout. What was done before an error stays done. -/
abbrev Pass := EStateM SourceError Layout

namespace Block

/-- Labels of the block hide global ones. -/
def resolve (b : Block) (globals : Symbols) (name : String) : Option Word :=
  (b.labels.lookup name).or (globals.lookup name)

def addLiteral (b : Block) (words : List Word) : Block :=
  if words ∈ b.literals then b else { b with literals := b.literals ++ [words] }

def addPiece (b : Block) (piece : Piece) : Block := { b with pieces := b.pieces.push piece }

end Block

namespace Pass

def ofExcept {α : Type} : Except SourceError α → Pass α
  | .ok a => pure a
  | .error e => throw e

def modifyBlock (f : Block → Block) : Pass Unit :=
  modify fun s => { s with opened := s.opened.map f }

/-- The address of the next word. -/
def here : Pass Word := do
  let s ← get
  if s.location < memorySize then return .ofNat s.location else throw .memoryFull

/-- Takes the next `size` words of memory. -/
def reserve (size : Nat) : Pass Word := do
  let address ← here
  let s ← get
  if memorySize < s.location + size then throw .memoryFull
  set { s with location := s.location + size }
  return address

def emit (line : Nat) (isInstruction : Bool) (cells : List Cell) : Pass Unit := do
  let address ← reserve cells.length
  modifyBlock (·.addPiece ⟨address, line, cells, isInstruction⟩)

def defineLabel (options : AssemblyOptions) (name : String) : Pass Unit := do
  let address ← here
  let s ← get
  match options.labelScope, s.opened with
  | true, some b =>
    let labels ← ofExcept (b.labels.define name address)
    set { s with opened := some { b with labels } }
  | _, _ =>
    let globals ← ofExcept (s.globals.define name address)
    set { s with globals }

/-- Reads an address operand. A literal is pooled even if its statement is refused later. -/
def address (text : String) : Pass Cell := do
  let cell ← ofExcept (addressOperand text.toList)
  if let .literal words := cell then modifyBlock (·.addLiteral words)
  return cell

def register (options : AssemblyOptions) (text : String) : Except SourceError RegisterField :=
  match text.toList with
  | ['G', 'R', d] =>
    if d = '8' then if options.useGr8 then .ok 8 else .error .gr8Disabled
    else if '0' ≤ d ∧ d ≤ '7' then .ok (.ofNat 16 (d.toNat - '0'.toNat))
    else .error (.registerExpected text)
  | _ => .error (.registerExpected text)

/-- Field zero means that there is no index register. -/
def indexRegister (options : AssemblyOptions) : Option String → Except SourceError RegisterField
  | none => .ok 0
  | some text => do
    let x ← register options text
    if x = 0 then throw .indexByGr0 else return x

def registerWord (m : Mnemonic) (r x : RegisterField) : Cell :=
  .value (Instruction.encode m.opcode r x)

/-- The form `adr[,x]`. -/
def addressForm (options : AssemblyOptions) (m : Mnemonic) (r : RegisterField) (adr : String)
    (index : Option String) : Pass (List Cell) := do
  let x ← ofExcept (indexRegister options index)
  return [registerWord m r x, ← address adr]

/-- The form `r,adr[,x]`. -/
def registerAddressForm (options : AssemblyOptions) (m : Mnemonic) (r adr : String)
    (index : Option String) : Pass (List Cell) := do
  addressForm options m (← ofExcept (register options r)) adr index

/-- The form `r1,r2`. -/
def registerForm (options : AssemblyOptions) (m : Mnemonic) (r₁ r₂ : String) :
    Pass (List Cell) := do
  let some opcode := m.registerOpcode | throw (.wrongOperands m.name)
  let r₁ ← ofExcept (register options r₁)
  let r₂ ← ofExcept (register options r₂)
  return [.value (Instruction.encode opcode r₁ r₂)]

/-- The cells of a machine instruction. -/
def instruction (options : AssemblyOptions) (m : Mnemonic) (operands : List String) :
    Pass (List Cell) :=
  match m.form, operands with
  | .empty, [] => return [registerWord m 0 0]
  | .register, [r] => return [registerWord m (← ofExcept (register options r)) 0]
  | .registerAddress, [r, adr] => registerAddressForm options m r adr none
  | .registerAddress, [r, adr, x] => registerAddressForm options m r adr (some x)
  | .registerAddressOrRegister, [r, second] =>
    if looksLikeRegister second.toList then registerForm options m r second
    else registerAddressForm options m r second none
  | .registerAddressOrRegister, [r, adr, x] => registerAddressForm options m r adr (some x)
  | .address, [adr] => addressForm options m 0 adr none
  | .address, [adr, x] => addressForm options m 0 adr (some x)
  | _, _ => throw (.wrongOperands m.name)

def pushCells (r : RegisterField) : List Cell := [registerWord .push 0 r, .value 0]

def popCells (r : RegisterField) : List Cell := [registerWord .pop r 0]

/-- `IN` and `OUT` save the two registers that the supervisor call reads. -/
def transferCells (code : Word) (buffer length : Cell) : List (List Cell) :=
  [pushCells 1, pushCells 2, [registerWord .lad 1 0, buffer], [registerWord .lad 2 0, length],
    [registerWord .svc 0 0, .value code], popCells 2, popCells 1]

def savedRegisters : List RegisterField := [1, 2, 3, 4, 5, 6, 7]

end Pass

/-- What may be written as an operation inside a block. -/
inductive Operation
  | space
  | constants
  | transfer (code : Word)
  | save
  | restore
  | machine (m : Mnemonic)
  deriving DecidableEq, Repr

def Operation.ofName? (name : String) : Option Operation :=
  match name with
  | "DS" => some .space
  | "DC" => some .constants
  | "IN" => some (.transfer svcInput)
  | "OUT" => some (.transfer svcOutput)
  | "RPUSH" => some .save
  | "RPOP" => some .restore
  | _ => (Mnemonic.ofName? name).map .machine

namespace Pass

def constants (operands : List String) : Except SourceError (List Cell) :=
  return (← operands.mapM fun text => constant text.toList).flatten

def operation (options : AssemblyOptions) (line : Nat) (name : String) (operands : List String) :
    Pass Unit :=
  match Operation.ofName? name with
  | some .space =>
    match operands with
    | [text] =>
      match Text.unsigned? 10 0x10000 text.toList with
      | some size => emit line false (.replicate size (.value 0))
      | none => throw (.invalidSize text)
    | _ => throw .sizeOperand
  | some .constants => do
    if operands.isEmpty then throw .constantsMissing
    emit line false (← ofExcept (constants operands))
  | some (.transfer code) =>
    match operands with
    | [buffer, length] => do
      let buffer ← address buffer
      let length ← address length
      (transferCells code buffer length).forM (emit line true)
    | _ => throw .transferOperands
  | some .save => do
    unless operands.isEmpty do throw (.operandsNotTaken name)
    savedRegisters.forM fun r => emit line true (pushCells r)
  | some .restore => do
    unless operands.isEmpty do throw (.operandsNotTaken name)
    savedRegisters.reverse.forM fun r => emit line true (popCells r)
  | some (.machine m) => do emit line true (← instruction options m operands)
  | none => throw (.unknownInstruction name)

def start (line : Nat) (label : Option String) (operands : List String) : Pass Unit := do
  if let some b := (← get).opened then throw (.nestedStart b.name)
  let some name := label | throw .unnamedStart
  let entryLabel ← match operands with
    | [] => pure none
    | [entry] => if isLabel entry.toList then pure (some entry) else throw .startOperands
    | _ => throw .startOperands
  let origin ← here
  modify fun s => { s with
    opened := some { name, startLine := line, origin, entryLabel }, started := true }

/-- Puts the literals behind the block and says where each is. -/
def placeLiterals : List (List Word) → Pass (List (List Word × Word))
  | [] => return []
  | words :: rest => do
    let address ← reserve words.length
    return (words, address) :: (← placeLiterals rest)

/-- The name of a block stands for its entry address. -/
def finish (label : Option String) (operands : List String) : Pass Unit := do
  let some b := (← get).opened | throw .endWithoutStart
  modify ({ · with opened := none })
  if label.isSome then throw .labelledEnd
  unless operands.isEmpty do throw .endOperands
  let pool ← placeLiterals b.literals
  let s ← get
  let entry ← match b.entryLabel with
    | none => pure b.origin
    | some name => match b.resolve s.globals name with
      | some address => pure address
      | none => throw (.undefinedLabel name)
  let globals ← ofExcept (s.globals.define b.name entry)
  set { s with globals, closed := s.closed.push { b with entry, pool } }

def statement (options : AssemblyOptions) (line : Nat) (s : Statement) : Pass Unit := do
  if let some label := s.label then
    unless isLabel label.toList do throw (.invalidLabel label)
  match s.opcode with
  | "START" => start line s.label s.operands
  | "END" => finish s.label s.operands
  | name =>
    if (← get).opened.isNone then throw (.outsideBlock name)
    if let some label := s.label then defineLabel options label
    operation options line name s.operands

def sourceLine (options : AssemblyOptions) (line : Nat) (text : List Char) : Pass Unit := do
  if let some s ← ofExcept (Statement.ofLine text) then statement options line s

end Pass

namespace Layout

def report (s : Layout) (line : Nat) (e : SourceError) : Layout :=
  { s with diagnostics := s.diagnostics.push ⟨line, e.message⟩ }

/-- Lays out one line; a line that is refused is reported once. -/
def addLine (options : AssemblyOptions) (s : Layout) (line : Nat) (text : List Char) : Layout :=
  match (Pass.sourceLine options line text).run s with
  | .ok _ s => s
  | .error e s => s.report line e

def addLines (options : AssemblyOptions) (s : Layout) (line : Nat) : List (List Char) → Layout
  | [] => s
  | text :: rest => addLines options (s.addLine options line text) (line + 1) rest

/-- The layout of a source text, with what only its end shows to be missing. -/
def ofLines (options : AssemblyOptions) (texts : List (List Char)) : Layout :=
  let s := addLines options {} 0 texts
  let s := match s.opened with
    | some b => s.report (texts.length - 1) (.missingEnd b.name)
    | none => s
  if s.started then s else s.report 0 .noStart

end Layout

end Assembly

end Comet
