import Comet.Assembly.Link

/-! The assembler with its tables. Blocks, their literals and what a statement puts into memory are
known by their numbers there, and linking writes each word at its address. An index for which a
table has no entry stops the assembler for good, and so does a difference below zero. -/
namespace Comet

namespace Assembly

/-- What ends a step: a line that is refused, or a number outside of its range. -/
inductive Stop
  | refused (e : SourceError)
  | outOfRange
  deriving DecidableEq, Repr

/-- A cell in which a literal is a number among those of its block. -/
inductive IndexedCell
  | value (w : Word)
  | label (name : String)
  | literal (index : Nat)
  deriving DecidableEq, Repr

/-- The cells of one instruction or one data statement, or of one literal. -/
structure Group where
  address : Word
  line : Nat
  block : Nat
  cells : List IndexedCell
  isInstruction : Bool
  deriving DecidableEq, Repr

structure TableBlock where
  name : String
  startLine : Nat
  origin : Word
  entryLabel : Option String
  entry : Word
  literals : List (List Word) := []
  /-- Where the literals have been put, once the block has ended. -/
  literalAddresses : List Word := []
  deriving DecidableEq, Repr

structure Tables where
  globals : Symbols := []
  /-- The labels of each block. -/
  locals : List Symbols := []
  blocks : List TableBlock := []
  current : Option Nat := none
  groups : List Group := []
  location : Nat := 0
  diagnostics : Array Diagnostic := #[]
  deriving DecidableEq, Repr

/-- Labels of the block hide global ones. -/
def Tables.resolve (t : Tables) (block : Nat) (name : String) : Option Word :=
  (t.locals[block]?.bind (·.lookup name)).or (t.globals.lookup name)

abbrev TablePass := EStateM Stop Tables

namespace TablePass

def refuse {α : Type} (e : SourceError) : TablePass α := throw (.refused e)

def ofExcept {α : Type} : Except SourceError α → TablePass α
  | .ok a => pure a
  | .error e => refuse e

def element {α : Type} (table : List α) (index : Nat) : TablePass α :=
  match table[index]? with
  | some a => pure a
  | none => throw .outOfRange

def difference (m n : Nat) : TablePass Nat :=
  if n ≤ m then pure (m - n) else throw .outOfRange

def blockAt (index : Nat) : TablePass TableBlock := do element (← get).blocks index

def updateBlock (index : Nat) (f : TableBlock → TableBlock) : TablePass Unit := do
  let b ← blockAt index
  modify fun t => { t with blocks := t.blocks.set index (f b) }

def here : TablePass Word := do
  let t ← get
  if t.location < memorySize then return .ofNat t.location else refuse .memoryFull

def emit (line block : Nat) (isInstruction : Bool) (cells : List IndexedCell) :
    TablePass Unit := do
  let address ← here
  let t ← get
  if memorySize < t.location + cells.length then refuse .memoryFull
  let group : Group := ⟨address, line, block, cells, isInstruction⟩
  set { t with location := t.location + cells.length, groups := t.groups ++ [group] }

def defineLabel (options : AssemblyOptions) (block : Nat) (name : String) : TablePass Unit := do
  let address ← here
  let t ← get
  match options.labelScope, t.locals[block]? with
  | true, some labels =>
    let labels ← ofExcept (labels.define name address)
    set { t with locals := t.locals.set block labels }
  | _, _ =>
    let globals ← ofExcept (t.globals.define name address)
    set { t with globals }

/-- The number of the literal. One that the block does not have yet is put behind the others. -/
def literal (block : Nat) (words : List Word) : TablePass Nat := do
  let b ← blockAt block
  match b.literals.idxOf? words with
  | some index => return index
  | none =>
    updateBlock block fun b => { b with literals := b.literals ++ [words] }
    return b.literals.length

def cell (block : Nat) : Cell → TablePass IndexedCell
  | .value w => return .value w
  | .label name => return .label name
  | .literal words => return .literal (← literal block words)

def address (block : Nat) (text : String) : TablePass IndexedCell := do
  cell block (← ofExcept (addressOperand text.toList))

/-- The digit of a register is its third character. -/
def register (options : AssemblyOptions) (text : String) : TablePass RegisterField := do
  if text = "GR8" then
    if options.useGr8 then return 8 else refuse .gr8Disabled
  else if looksLikeRegister text.toList then
    let d ← element text.toList 2
    if d ≤ '7' then return .ofNat 16 (← difference d.toNat '0'.toNat)
    else refuse (.registerExpected text)
  else refuse (.registerExpected text)

def indexRegister (options : AssemblyOptions) : Option String → TablePass RegisterField
  | none => return 0
  | some text => do
    let x ← register options text
    if x = 0 then refuse .indexByGr0 else return x

def registerWord (m : Mnemonic) (r x : RegisterField) : IndexedCell :=
  .value (Instruction.encode m.opcode r x)

def addressForm (options : AssemblyOptions) (block : Nat) (m : Mnemonic) (r : RegisterField)
    (adr : String) (index : Option String) : TablePass (List IndexedCell) := do
  let x ← indexRegister options index
  return [registerWord m r x, ← address block adr]

def registerAddressForm (options : AssemblyOptions) (block : Nat) (m : Mnemonic)
    (r adr : String) (index : Option String) : TablePass (List IndexedCell) := do
  addressForm options block m (← register options r) adr index

def registerForm (options : AssemblyOptions) (m : Mnemonic) (r₁ r₂ : String) :
    TablePass (List IndexedCell) := do
  let some opcode := m.registerOpcode | refuse (.wrongOperands m.name)
  let r₁ ← register options r₁
  let r₂ ← register options r₂
  return [.value (Instruction.encode opcode r₁ r₂)]

def instruction (options : AssemblyOptions) (block : Nat) (m : Mnemonic)
    (operands : List String) : TablePass (List IndexedCell) :=
  match m.form, operands with
  | .empty, [] => return [registerWord m 0 0]
  | .register, [r] => return [registerWord m (← register options r) 0]
  | .registerAddress, [r, adr] => registerAddressForm options block m r adr none
  | .registerAddress, [r, adr, x] => registerAddressForm options block m r adr (some x)
  | .registerAddressOrRegister, [r, second] =>
    if looksLikeRegister second.toList then registerForm options m r second
    else registerAddressForm options block m r second none
  | .registerAddressOrRegister, [r, adr, x] => registerAddressForm options block m r adr (some x)
  | .address, [adr] => addressForm options block m 0 adr none
  | .address, [adr, x] => addressForm options block m 0 adr (some x)
  | _, _ => refuse (.wrongOperands m.name)

def pushCells (r : RegisterField) : List IndexedCell := [registerWord .push 0 r, .value 0]

def popCells (r : RegisterField) : List IndexedCell := [registerWord .pop r 0]

def transferCells (code : Word) (buffer length : IndexedCell) : List (List IndexedCell) :=
  [pushCells 1, pushCells 2, [registerWord .lad 1 0, buffer], [registerWord .lad 2 0, length],
    [registerWord .svc 0 0, .value code], popCells 2, popCells 1]

def operation (options : AssemblyOptions) (line block : Nat) (name : String)
    (operands : List String) : TablePass Unit :=
  match Operation.ofName? name with
  | some .space =>
    match operands with
    | [text] =>
      match Text.unsigned? 10 0x10000 text.toList with
      | some size => emit line block false (.replicate size (.value 0))
      | none => refuse (.invalidSize text)
    | _ => refuse .sizeOperand
  | some .constants => do
    if operands.isEmpty then refuse .constantsMissing
    let cells ← ofExcept (Pass.constants operands)
    emit line block false (← cells.mapM (cell block))
  | some (.transfer code) =>
    match operands with
    | [buffer, length] => do
      let buffer ← address block buffer
      let length ← address block length
      (transferCells code buffer length).forM (emit line block true)
    | _ => refuse .transferOperands
  | some .save => do
    unless operands.isEmpty do refuse (.operandsNotTaken name)
    Pass.savedRegisters.forM fun r => emit line block true (pushCells r)
  | some .restore => do
    unless operands.isEmpty do refuse (.operandsNotTaken name)
    Pass.savedRegisters.reverse.forM fun r => emit line block true (popCells r)
  | some (.machine m) => do emit line block true (← instruction options block m operands)
  | none => refuse (.unknownInstruction name)

def entryOperand : List String → TablePass (Option String)
  | [] => return none
  | [entry] => if isLabel entry.toList then return some entry else refuse .startOperands
  | _ => refuse .startOperands

/-- The number of a new block is that of its table of labels. -/
def openBlock (line : Nat) (name : String) (entryLabel : Option String) : TablePass Unit := do
  let origin ← here
  modify fun t => { t with
    locals := t.locals ++ [[]]
    blocks := t.blocks ++ [{ name, startLine := line, origin, entryLabel, entry := origin }]
    current := some t.locals.length }

def start (line : Nat) (label : Option String) (operands : List String) : TablePass Unit := do
  if let some block := (← get).current then refuse (.nestedStart (← blockAt block).name)
  let some name := label | refuse .unnamedStart
  openBlock line name (← entryOperand operands)

def placeLiteral (line block : Nat) (words : List Word) : TablePass Word := do
  let address ← here
  emit line block false (words.map .value)
  return address

def placeLiterals (line block : Nat) : List (List Word) → TablePass (List Word)
  | [] => return []
  | words :: rest => return (← placeLiteral line block words) :: (← placeLiterals line block rest)

/-- Where execution of the block starts. -/
def entryOf (block : Nat) (b : TableBlock) : TablePass Word := do
  match b.entryLabel with
  | none => return b.origin
  | some name =>
    match (← get).resolve block name with
    | some address => return address
    | none => refuse (.undefinedLabel name)

/-- The name of a block stands for its entry address. -/
def enterBlock (block : Nat) (name : String) (entry : Word) : TablePass Unit := do
  updateBlock block ({ · with entry })
  let t ← get
  let globals ← ofExcept (t.globals.define name entry)
  set { t with globals }

def closeBlock (line block : Nat) : TablePass Unit := do
  let literals := (← blockAt block).literals
  updateBlock block ({ · with literals := [] })
  let literalAddresses ← placeLiterals line block literals
  updateBlock block ({ · with literalAddresses })
  let b ← blockAt block
  enterBlock block b.name (← entryOf block b)

def finish (line : Nat) (label : Option String) (operands : List String) : TablePass Unit := do
  let some block := (← get).current | refuse .endWithoutStart
  modify ({ · with current := none })
  if label.isSome then refuse .labelledEnd
  unless operands.isEmpty do refuse .endOperands
  closeBlock line block

def body (options : AssemblyOptions) (line : Nat) (label : Option String) (name : String)
    (operands : List String) : TablePass Unit := do
  let some block := (← get).current | refuse (.outsideBlock name)
  if let some label := label then defineLabel options block label
  operation options line block name operands

def statement (options : AssemblyOptions) (line : Nat) (s : Statement) : TablePass Unit := do
  if let some label := s.label then
    unless isLabel label.toList do refuse (.invalidLabel label)
  if s.opcode = "START" then start line s.label s.operands
  else if s.opcode = "END" then finish line s.label s.operands
  else body options line s.label s.opcode s.operands

def sourceLine (options : AssemblyOptions) (line : Nat) (text : List Char) : TablePass Unit := do
  if let some s ← ofExcept (Statement.ofLine text) then statement options line s

end TablePass

namespace Tables

def report (t : Tables) (line : Nat) (e : SourceError) : Tables :=
  { t with diagnostics := t.diagnostics.push ⟨line, e.message⟩ }

def addLine (options : AssemblyOptions) (t : Tables) (line : Nat) (text : List Char) :
    Option Tables :=
  match (TablePass.sourceLine options line text).run t with
  | .ok _ t => some t
  | .error (.refused e) t => some (t.report line e)
  | .error .outOfRange _ => none

def addLines (options : AssemblyOptions) (t : Tables) (line : Nat) :
    List (List Char) → Option Tables
  | [] => some t
  | text :: rest => do addLines options (← t.addLine options line text) (line + 1) rest

/-- The report of a block that is still open at the last line. -/
def reportOpen (t : Tables) (line : Nat) : Option Tables :=
  match t.current with
  | some block => t.blocks[block]?.map fun b => t.report line (.missingEnd b.name)
  | none => some t

def ofLines (options : AssemblyOptions) (texts : List (List Char)) : Option Tables := do
  let t ← addLines options {} 0 texts
  let t ← t.reportOpen (texts.length - 1)
  return if t.blocks.isEmpty then t.report 0 .noStart else t

end Tables

/-- The code as far as it has been written, with the labels that nobody defined. -/
structure Linking where
  code : List Word
  diagnostics : List Diagnostic := []
  deriving DecidableEq, Repr

namespace Linking

def report (l : Linking) (line : Nat) (e : SourceError) : Linking :=
  { l with diagnostics := l.diagnostics ++ [⟨line, e.message⟩] }

def write (l : Linking) (address : Nat) (w : Word) : Option Linking :=
  if address < l.code.length then some { l with code := l.code.set address w } else none

def linkCell (t : Tables) (g : Group) (l : Linking) (address : Nat) :
    IndexedCell → Option Linking
  | .value w => l.write address w
  | .label name => match t.resolve g.block name with
    | some w => l.write address w
    | none => (l.report g.line (.undefinedLabel name)).write address 0
  | .literal index => do
    let b ← t.blocks[g.block]?
    let w ← b.literalAddresses[index]?
    l.write address w

def linkCells (t : Tables) (g : Group) (l : Linking) (address : Nat) :
    List IndexedCell → Option Linking
  | [] => some l
  | c :: rest => do linkCells t g (← l.linkCell t g address c) (address + 1) rest

def linkGroups (t : Tables) (l : Linking) : List Group → Option Linking
  | [] => some l
  | g :: rest => do linkGroups t (← l.linkCells t g g.address.toNat g.cells) rest

end Linking

namespace Tables

def debugMap (t : Tables) : DebugMap where
  lineMap := .ofList (t.groups.filterMap fun g =>
    if g.isInstruction then some (g.address, g.line) else none)
  subroutineMap := .ofList (t.blocks.map fun b => (b.entry, b.startLine))
  subroutines := t.blocks.map fun b => ⟨b.name, b.startLine⟩

def link (t : Tables) : Option Assembled := do
  let l ← Linking.linkGroups t { code := .replicate t.location 0 } t.groups
  if l.diagnostics.isEmpty then
    return { program := some {
      code := l.code
      entry := (t.blocks.head?.map (·.entry)).getD 0
      debug := t.debugMap } }
  else return { diagnostics := l.diagnostics }

end Tables

end Assembly

/-- The assembler by its tables. There is no answer if an index was in none of them. -/
def assembleByTables (source : String) (options : AssemblyOptions) : Option Assembled := do
  let t ← Assembly.Tables.ofLines options (Text.lines source.toList)
  if t.diagnostics.isEmpty then t.link else return { diagnostics := t.diagnostics.toList }

end Comet
