import Comet.Proofs.Assembly.WellFormed

namespace Comet.Assembly

/-- The lines stand one behind the other from a location on. -/
def LinesFrom : Nat → List ListingLine → Prop
  | _, [] => True
  | location, l :: rest =>
    l.location = location ∧ LinesFrom (location + l.content.cells.length) rest

/-- The lines of the block stand one behind the other, and each can be read. -/
structure ListingBlock.Sound (b : ListingBlock) : Prop where
  counted : LinesFrom b.origin b.body
  wellFormed : ∀ l ∈ b.body, l.content.WellFormed

/-- The blocks stand one behind the other from a location on, each with its literals. -/
def BlocksFrom : Nat → List ListingBlock → Prop
  | _, [] => True
  | location, b :: rest =>
    b.origin = location ∧ b.Sound ∧ BlocksFrom (location + b.slots.length) rest

theorem LinesFrom.concat {location : Nat} {body : List ListingLine} {l : ListingLine}
    (h : LinesFrom location body)
    (hl : l.location = location + (body.flatMap (·.content.cells)).length) :
    LinesFrom location (body ++ [l]) := by
  induction body generalizing location with
  | nil => exact ⟨by simpa using hl, trivial⟩
  | cons first rest ih =>
    refine ⟨h.1, ih h.2 ?_⟩
    rw [hl, List.flatMap_cons, List.length_append, Nat.add_assoc]

theorem SymbolicInstruction.length_slots (b : ListingBlock) (line : Nat) (i : SymbolicInstruction) :
    (i.slots b line).length = i.cells.length := by
  simp [slots, cells]

theorem SymbolicInstruction.map_cell_slots (b : ListingBlock) (line : Nat)
    (i : SymbolicInstruction) : (i.slots b line).map (·.cell) = i.cells := by
  simp [slots, cells, Function.comp_def]

theorem Content.map_cell_slots (b : ListingBlock) (line : Nat) (content : Content) :
    (content.slots b line).map (·.cell) = content.cells := by
  cases content with
  | data => simp [slots, Content.cells, Function.comp_def]
  | code =>
    simp [slots, Content.cells, List.map_flatMap, SymbolicInstruction.map_cell_slots]

theorem Content.length_slots (b : ListingBlock) (line : Nat) (content : Content) :
    (content.slots b line).length = content.cells.length := by
  rw [← content.map_cell_slots b line, List.length_map]

theorem ListingBlock.length_slots (b : ListingBlock) :
    b.slots.length = b.statementCells.length + b.literals.flatten.length := by
  rw [slots, List.length_append, List.length_map, statementCells, List.length_flatMap,
    List.length_flatMap]
  simp only [Content.length_slots]

theorem ListingBlock.Sound.addLine {b : ListingBlock} {l : ListingLine} (hb : b.Sound)
    (hlocation : l.location = b.origin + b.statementCells.length) (hl : l.content.WellFormed) :
    (b.addLine l).Sound := by
  refine ⟨hb.counted.concat hlocation, ?_⟩
  intro l' hl'
  rcases List.mem_append.mp hl' with hold | hnew
  · exact hb.wellFormed l' hold
  · obtain rfl := List.mem_singleton.mp hnew
    exact hl

theorem ListingBlock.statementCells_addLine (b : ListingBlock) (l : ListingLine) :
    (b.addLine l).statementCells = b.statementCells ++ l.content.cells := by
  simp [statementCells, addLine]

/-- In a listing the location counter counts the words of all that stands before. -/
theorem blocksFrom_of_listFrom {options : AssemblyOptions} {last : Option ListingBlock}
    {location line : Nat} {texts : List (List Char)} {blocks : List ListingBlock}
    (h : listFrom options last location line texts = some blocks)
    (hlast : ∀ b, last = some b → b.Sound ∧ location = b.origin + b.statementCells.length) :
    BlocksFrom (last.elim location (·.origin)) blocks := by
  -- By induction on the lines; the open block, if there is one, ends where the counter is.
  rw [listFrom_eq_some_iff] at h
  induction h with
  | done => trivial
  | blank _ _ ih => exact ih hlast
  | start _ _ ih => exact ih (by rintro _ ⟨⟩; exact ⟨⟨trivial, by simp⟩, rfl⟩)
  | @body b _ _ _ _ _ label content hrow _ ih =>
    obtain ⟨hb, hlocation⟩ := hlast b rfl
    refine ih ?_
    rintro _ ⟨⟩
    refine ⟨hb.addLine hlocation (Row.readable_of_ofLine? hrow).wellFormed, ?_⟩
    rw [ListingBlock.statementCells_addLine, List.length_append, hlocation, Nat.add_assoc]
    rfl
  | @finish b _ _ _ _ _ _ _ ih =>
    obtain ⟨hb, hlocation⟩ := hlast b rfl
    refine ⟨rfl, hb, ?_⟩
    rw [ListingBlock.length_slots, ← Nat.add_assoc, Option.elim_some, ← hlocation]
    exact ih nofun

end Comet.Assembly
