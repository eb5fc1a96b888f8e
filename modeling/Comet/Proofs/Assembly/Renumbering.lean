import Comet.Proofs.Assembly.Refused
import Comet.Proofs.Assembly.Linked

namespace Comet

namespace AddressMap

def renumber (map : AddressMap) (number : Nat → Nat) : AddressMap :=
  ⟨map.entries.map fun entry => (entry.1, number entry.2)⟩

variable {number : Nat → Nat}

theorem insertEntry_renumber (address : Word) (line : Nat) (entries : List (Word × Nat)) :
    insertEntry address (number line) (entries.map fun entry => (entry.1, number entry.2)) =
      (insertEntry address line entries).map fun entry => (entry.1, number entry.2) := by
  induction entries with
  | nil => rfl
  | cons entry rest ih =>
    simp only [List.map_cons, insertEntry, ih, apply_ite (List.map _)]

theorem insert_renumber (map : AddressMap) (address : Word) (line : Nat) :
    (map.renumber number).insert address (number line) =
      (map.insert address line).renumber number :=
  congrArg mk (insertEntry_renumber address line map.entries)

theorem foldl_insert_renumber (entries : List (Word × Nat)) (map : AddressMap) :
    (entries.map fun entry => (entry.1, number entry.2)).foldl
        (fun map entry => map.insert entry.1 entry.2) (map.renumber number) =
      (entries.foldl (fun map entry => map.insert entry.1 entry.2) map).renumber number := by
  induction entries generalizing map with
  | nil => rfl
  | cons entry rest ih => rw [List.map_cons, List.foldl_cons, insert_renumber, ih, List.foldl_cons]

theorem ofList_renumber (entries : List (Word × Nat)) :
    ofList (entries.map fun entry => (entry.1, number entry.2)) =
      (ofList entries).renumber number :=
  foldl_insert_renumber entries {}

theorem foldr_insert_renumber (entries : List (Word × Nat)) :
    (entries.map fun entry => (entry.1, number entry.2)).foldr
        (fun entry map => map.insert entry.1 entry.2) {} =
      (entries.foldr (fun entry map => map.insert entry.1 entry.2) ({} : AddressMap)).renumber
        number := by
  rw [List.foldr_eq_foldl_reverse, List.foldr_eq_foldl_reverse, ← List.map_reverse]
  exact foldl_insert_renumber entries.reverse {}

end AddressMap

/-- The debug map with other numbers for the lines. Its addresses are as they were. -/
def DebugMap.renumber (d : DebugMap) (number : Nat → Nat) : DebugMap where
  lineMap := d.lineMap.renumber number
  subroutineMap := d.subroutineMap.renumber number
  subroutines := d.subroutines.map fun sub => { sub with startLine := number sub.startLine }

def Program.renumber (p : Program) (number : Nat → Nat) : Program :=
  { p with debug := p.debug.renumber number }

namespace Assembly

def Piece.renumber (number : Nat → Nat) (piece : Piece) : Piece :=
  { piece with line := number piece.line }

def Block.renumber (number : Nat → Nat) (b : Block) : Block :=
  { b with startLine := number b.startLine, pieces := b.pieces.map (·.renumber number) }

def ClosedBlock.renumber (number : Nat → Nat) (b : ClosedBlock) : ClosedBlock :=
  { b with toBlock := b.toBlock.renumber number }

/-- The layout with other numbers for the lines, except in its reports. -/
def Layout.renumber (number : Nat → Nat) (s : Layout) : Layout :=
  { s with
    opened := s.opened.map (·.renumber number)
    closed := s.closed.map (·.renumber number) }

section taken

variable {options : AssemblyOptions} {number : Nat → Nat} {line location : Nat} {s t : Layout}
  {b : Block}

theorem instructionPieces_renumber (is : List SymbolicInstruction) :
    (instructionPieces line location is).map (·.renumber number) =
      instructionPieces (number line) location is := by
  induction is generalizing location with
  | nil => rfl
  | cons i rest ih => rw [instructionPieces, List.map_cons, ih, instructionPieces, Piece.renumber]

theorem Content.pieces_renumber (content : Content) :
    (content.pieces line location).map (·.renumber number) =
      content.pieces (number line) location := by
  cases content with
  | data cells => rfl
  | code is => exact instructionPieces_renumber is

/-- Which words a piece fills is not a matter of its line. -/
theorem Content.extents_renumber (content : Content) :
    (content.pieces (number line) location).map Piece.extent =
      (content.pieces line location).map Piece.extent := by
  rw [← content.pieces_renumber, List.map_map]
  rfl

theorem Block.grow_renumber (b : Block) (content : Content) :
    (b.grow line location content).renumber number =
      (b.renumber number).grow (number line) location content := by
  have hliterals : ((b.renumber number).note content.cells).literals =
      (b.note content.cells).literals :=
    @note_literals_congr (b.renumber number) b rfl content.cells
  rw [grow_eq, grow_eq, hliterals, ← content.pieces_renumber]
  simp [renumber]

theorem Layout.Defines.renumber {label : Option String} {labels globals : Symbols}
    (h : s.Defines options b label labels globals) :
    (s.renumber number).Defines options (b.renumber number) label labels globals := by
  cases h with
  | none => exact .none
  | own hscope hfree hlabels => exact .own hscope hfree hlabels
  | shared hscope hfree hglobals => exact .shared hscope hfree hglobals

theorem Layout.renumber_opened (hopened : s.opened = some b) :
    (s.renumber number).opened = some (b.renumber number) :=
  congrArg (Option.map _) hopened

/-- Nothing that is asked of a row is a matter of line numbers. -/
theorem Layout.Takes.renumber {row : Option Row} (h : s.Takes options line row t)
    (number : Nat → Nat) :
    (s.renumber number).Takes options (number line) row (t.renumber number) := by
  cases h with
  | blank => exact .blank
  | start name entryLabel hopened hfree =>
    have hnone : (s.renumber number).opened = none := congrArg (Option.map _) hopened
    show Takes options (number line) (s.renumber number) _ { s.renumber number with
      opened := some {
        name, startLine := number line, origin := .ofNat s.location, entryLabel
        pieces := (#[] : Array Piece).map (·.renumber number) }
      started := true }
    rw [Array.map_empty]
    exact .start name entryLabel hnone hfree
  | body b label content labels globals hopened hdefines htiles =>
    show Takes options (number line) (s.renumber number) _ { s.renumber number with
      globals
      opened := some ((Block.grow { b with labels } line s.location content).renumber number)
      location := s.location + content.cells.length }
    rw [Block.grow_renumber]
    rw [← content.extents_renumber] at htiles
    exact .body (b.renumber number) label content labels globals (renumber_opened hopened)
      hdefines.renumber htiles
  | finish b entry globals hopened hentry hglobals htiles =>
    show Takes options (number line) (s.renumber number) _ { s.renumber number with
      globals
      opened := none
      closed := (s.closed.push { b with entry, pool := placePool s.location b.literals }).map
        (·.renumber number)
      location := s.location + b.literals.flatten.length }
    rw [Array.map_push]
    exact .finish (b.renumber number) entry globals (renumber_opened hopened) hentry hglobals htiles

end taken

section linked

variable {number : Nat → Nat} {s : Layout}

theorem ClosedBlock.words_renumber (b : ClosedBlock) (globals : Symbols) :
    (b.renumber number).words globals = b.words globals := by
  simp [words, renumber, Block.renumber, Piece.renumber, List.flatMap_map, cellValue?,
    Block.resolve]

theorem ClosedBlock.instructionLines_renumber (b : ClosedBlock) :
    (b.renumber number).instructionLines =
      b.instructionLines.map fun entry => (entry.1, number entry.2) := by
  rw [instructionLines, instructionLines, List.map_filterMap]
  simp only [renumber, Block.renumber, Piece.renumber, Array.toList_map, List.filterMap_map,
    Function.comp_def]
  refine congrArg (List.filterMap · b.pieces.toList) (funext fun piece => ?_)
  cases piece.isInstruction <;> rfl

/-- Labels that are not defined are reported with the lines that they are on. -/
theorem ClosedBlock.undefinedLabels_renumber (b : ClosedBlock) (globals : Symbols) :
    (b.renumber number).undefinedLabels globals =
      (b.undefinedLabels globals).map fun d => { d with line := number d.line } := by
  have hpieces : (b.renumber number).pieces.toList =
      b.pieces.toList.map (·.renumber number) := Array.toList_map
  rw [undefinedLabels, undefinedLabels, hpieces, List.flatMap_map, List.map_flatMap]
  refine congrArg (List.flatMap · b.pieces.toList) (funext fun piece => ?_)
  rw [List.map_filterMap]
  refine congrArg (List.filterMap · piece.cells) (funext fun c => ?_)
  cases c with
  | label name =>
    show (if (b.resolve globals name).isSome = true then none else _) = Option.map _ (ite _ _ _)
    split <;> rfl
  | value w => rfl
  | literal words => rfl

theorem Layout.blocks_renumber (s : Layout) :
    (s.renumber number).blocks = s.blocks.map (·.renumber number) := by
  simp [blocks, renumber]

theorem Layout.program_renumber (s : Layout) :
    (s.renumber number).program = s.program.renumber number := by
  have hlines : (s.renumber number).blocks.flatMap (·.instructionLines) =
      (s.blocks.flatMap (·.instructionLines)).map fun entry => (entry.1, number entry.2) := by
    simp only [blocks_renumber, List.flatMap_map, List.map_flatMap,
      ClosedBlock.instructionLines_renumber]
  apply Program.ext
  · show (s.renumber number).blocks.flatMap (·.words s.globals) =
      s.blocks.flatMap (·.words s.globals)
    rw [blocks_renumber, List.flatMap_map]
    simp only [ClosedBlock.words_renumber]
  · show ((s.renumber number).blocks.head?.map (·.entry)).getD 0 =
      (s.blocks.head?.map (·.entry)).getD 0
    rw [blocks_renumber, List.head?_map, Option.map_map]
    rfl
  · apply DebugMap.ext
    · show ((s.renumber number).blocks.flatMap (·.instructionLines)).foldr _ _ = _
      rw [hlines, AddressMap.foldr_insert_renumber]
      rfl
    · show AddressMap.ofList ((s.renumber number).blocks.map fun b => (b.entry, b.startLine)) =
        (AddressMap.ofList (s.blocks.map fun b => (b.entry, b.startLine))).renumber number
      rw [← AddressMap.ofList_renumber, blocks_renumber, List.map_map, List.map_map]
      rfl
    · show (s.renumber number).blocks.map (fun b => (⟨b.name, b.startLine⟩ : Subroutine)) =
        (s.blocks.map fun b => (⟨b.name, b.startLine⟩ : Subroutine)).map fun sub =>
          { sub with startLine := number sub.startLine }
      rw [blocks_renumber, List.map_map, List.map_map]
      rfl

/-- A layout without reports is linked to the same program, with other lines in its debug map. -/
theorem Layout.link_renumber {p : Program} (h : s.link = { program := some p }) :
    (s.renumber number).link = { program := some (p.renumber number) } := by
  have hreports : (s.renumber number).blocks.flatMap (·.undefinedLabels s.globals) =
      (s.blocks.flatMap (·.undefinedLabels s.globals)).map fun d =>
        { d with line := number d.line } := by
    simp only [blocks_renumber, List.flatMap_map, List.map_flatMap,
      ClosedBlock.undefinedLabels_renumber]
  have hnothing : s.link.diagnostics = [] := congrArg Assembled.diagnostics h
  obtain ⟨hnone, hdefined⟩ := link_diagnostics_eq_nil_iff.mp hnothing
  obtain rfl : s.program = p :=
    Option.some.inj (congrArg Assembled.program ((link_eq_program hnothing).symm.trans h))
  rw [← program_renumber]
  refine link_eq_program (link_diagnostics_eq_nil_iff.mpr ⟨hnone, ?_⟩)
  show (s.renumber number).blocks.flatMap (·.undefinedLabels s.globals) = []
  rw [hreports, hdefined, List.map_nil]

end linked

end Assembly

end Comet
