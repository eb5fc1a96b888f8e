import Comet.Assembly.Layout
import Comet.Text.Lines

namespace Comet

namespace Assembly

/-- The value of a cell of the block. -/
def ClosedBlock.cellValue? (b : ClosedBlock) (globals : Symbols) : Cell → Option Word
  | .value w => some w
  | .label name => b.resolve globals name
  | .literal words => b.pool.lookup words

namespace ClosedBlock

/-- The words of the block, its literals last. -/
def words (b : ClosedBlock) (globals : Symbols) : List Word :=
  (b.pieces.toList.flatMap fun piece => piece.cells.map fun c => (b.cellValue? globals c).getD 0) ++
    b.pool.flatMap (·.1)

/-- One report for each word that names a label nobody defined. -/
def undefinedLabels (b : ClosedBlock) (globals : Symbols) : List Diagnostic :=
  b.pieces.toList.flatMap fun piece => piece.cells.filterMap fun
    | .label name =>
      if (b.resolve globals name).isSome then none
      else some ⟨piece.line, (SourceError.undefinedLabel name).message⟩
    | _ => none

def instructionLines (b : ClosedBlock) : List (Word × Nat) :=
  b.pieces.toList.filterMap fun piece =>
    if piece.isInstruction then some (piece.address, piece.line) else none

end ClosedBlock

namespace Layout

def blocks (s : Layout) : List ClosedBlock := s.closed.toList

def debugMap (s : Layout) : DebugMap where
  lineMap := (s.blocks.flatMap (·.instructionLines)).foldr (fun e map => map.insert e.1 e.2) {}
  subroutineMap := .ofList (s.blocks.map fun b => (b.entry, b.startLine))
  subroutines := s.blocks.map fun b => ⟨b.name, b.startLine⟩

/-- Execution starts at the entry of the first block. -/
def program (s : Layout) : Program where
  code := s.blocks.flatMap (·.words s.globals)
  entry := (s.blocks.head?.map (·.entry)).getD 0
  debug := s.debugMap

def link (s : Layout) : Assembled :=
  if s.diagnostics.isEmpty then
    match s.blocks.flatMap (·.undefinedLabels s.globals) with
    | [] => { program := some s.program }
    | diagnostics => { diagnostics }
  else { diagnostics := s.diagnostics.toList }

end Layout

end Assembly

/-- The assembler: diagnostics in the order of their lines, or a program. -/
def assemble : Assembler := fun source options =>
  (Assembly.Layout.ofLines options (Text.lines source.toList)).link

end Comet
