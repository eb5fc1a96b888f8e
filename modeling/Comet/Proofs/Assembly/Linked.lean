import Comet.Debug.LineStepper
import Comet.Proofs.Assembly.Blocks

namespace Comet

namespace AddressMap

theorem mem_insertEntry {address : Word} {line : Nat} {entries : List (Word × Nat)}
    {e : Word × Nat} (h : e ∈ insertEntry address line entries) :
    e = (address, line) ∨ e ∈ entries := by
  induction entries with
  | nil => simpa [insertEntry] using h
  | cons entry rest ih =>
    unfold insertEntry at h
    split at h
    · simpa using h
    · split at h
      · rcases List.mem_cons.mp h with h | h
        · exact Or.inl h
        · exact Or.inr (List.mem_cons_of_mem _ h)
      · rcases List.mem_cons.mp h with h | h
        · exact Or.inr (h ▸ List.mem_cons_self)
        · exact (ih h).imp_right (List.mem_cons_of_mem _)

/-- The first of the entries for an address counts if the last one is inserted first. -/
theorem get?_foldr_insert (entries : List (Word × Nat)) (a : Word) :
    (entries.foldr (fun e map => map.insert e.1 e.2) ({} : AddressMap)).get? a =
      entries.lookup a := by
  induction entries with
  | nil => rfl
  | cons entry rest ih =>
    rw [List.foldr_cons, get?_insert, ih, List.lookup_cons]
    by_cases h : a = entry.1
    · simp [h]
    · rw [if_neg h, beq_eq_false_iff_ne.mpr h]

/-- The last of the entries for an address counts in a map made of a list. -/
theorem get?_ofList (entries : List (Word × Nat)) (a : Word) :
    (ofList entries).get? a = entries.reverse.lookup a := by
  rw [← get?_foldr_insert, List.foldr_reverse, ofList]

theorem mem_ofList {entries : List (Word × Nat)} {e : Word × Nat}
    (h : e ∈ (ofList entries).entries) : e ∈ entries := by
  have hfold (entries : List (Word × Nat)) (map : AddressMap)
      (h : e ∈ (entries.foldl (fun map entry => map.insert entry.1 entry.2) map).entries) :
      e ∈ entries ∨ e ∈ map.entries := by
    induction entries generalizing map with
    | nil => exact Or.inr h
    | cons entry rest ih =>
      rcases ih _ h with h | h
      · exact Or.inl (List.mem_cons_of_mem _ h)
      · rcases mem_insertEntry h with h | h
        · exact Or.inl (h ▸ List.mem_cons_self)
        · exact Or.inr h
  rcases hfold entries {} h with h | h
  · exact h
  · cases h

theorem mem_entries_of_get? {map : AddressMap} {a : Word} {line : Nat}
    (h : map.get? a = some line) : (a, line) ∈ map.entries := by
  obtain ⟨before, behind, hentries, -⟩ := List.lookup_eq_some_iff.mp h
  rw [hentries]
  simp

theorem hasLine_iff (map : AddressMap) (line : Nat) :
    map.hasLine line = true ↔ ∃ a, (a, line) ∈ map.entries := by
  simp [hasLine]

end AddressMap

attribute [ext] DebugMap Program

/-- No instruction is from a START line, and no START line is right below another one. -/
structure DebugMap.Apart (d : DebugMap) : Prop where
  lineAt : ∀ {a line}, d.lineAt a = some line → d.isEntryLine line = false
  entryLine : ∀ {line}, d.isEntryLine line = true → d.isEntryLine (line + 1) = false

theorem DebugMap.isEntryLine_of_get? {d : DebugMap} {a : Word} {line : Nat}
    (h : d.subroutineMap.get? a = some line) : d.isEntryLine line = true :=
  (AddressMap.hasLine_iff _ _).mpr ⟨a, AddressMap.mem_entries_of_get? h⟩

theorem DebugMap.get?_of_subroutineAt {d : DebugMap} {a : Word} {callee : Subroutine}
    (h : d.subroutineAt a = some callee) : d.subroutineMap.get? a = some callee.startLine := by
  obtain ⟨line, hline, hfind⟩ := Option.bind_eq_some_iff.mp h
  have hcallee := List.find?_some hfind
  simp only [beq_iff_eq] at hcallee
  rw [hline, hcallee]

namespace Assembly

namespace Layout

variable {s : Layout} {n : Nat} {a : Word} {line : Nat}

theorem lineAt_eq_some (h : s.program.debug.lineAt a = some line) :
    ∃ b ∈ s.blocks, ∃ piece ∈ b.pieces.toList,
      piece.isInstruction = true ∧ piece.address = a ∧ piece.line = line := by
  -- The line map is made from the last piece to the first, so the first one for an address counts.
  have hlookup : (s.blocks.flatMap (·.instructionLines)).lookup a = some line := by
    rw [← AddressMap.get?_foldr_insert]
    exact h
  obtain ⟨before, behind, hentries, -⟩ := List.lookup_eq_some_iff.mp hlookup
  have hmem : (a, line) ∈ s.blocks.flatMap (·.instructionLines) := by simp [hentries]
  obtain ⟨b, hb, hmem⟩ := List.mem_flatMap.mp hmem
  obtain ⟨piece, hpiece, hsome⟩ := List.mem_filterMap.mp hmem
  by_cases hinstruction : piece.isInstruction = true
  · simp only [hinstruction, if_true, Option.some.injEq, Prod.mk.injEq] at hsome
    exact ⟨b, hb, piece, hpiece, hinstruction, hsome.1, hsome.2⟩
  · simp [hinstruction] at hsome

theorem subroutineMap_get?_eq_some (h : s.program.debug.subroutineMap.get? a = some line) :
    ∃ b ∈ s.blocks, b.entry = a ∧ b.startLine = line := by
  have hmem := AddressMap.mem_ofList (AddressMap.mem_entries_of_get? h)
  obtain ⟨b, hb, he⟩ := List.mem_map.mp hmem
  exact ⟨b, hb, congrArg (·.1) he, congrArg (·.2) he⟩

theorem isEntryLine_eq_true (h : s.program.debug.isEntryLine line = true) :
    ∃ b ∈ s.blocks, b.startLine = line := by
  obtain ⟨a, hmem⟩ := (AddressMap.hasLine_iff _ _).mp h
  obtain ⟨b, hb, he⟩ := List.mem_map.mp (AddressMap.mem_ofList hmem)
  exact ⟨b, hb, congrArg (·.2) he⟩

theorem Sound.same_or_apart (hs : s.Sound n) {b c : ClosedBlock} (hb : b ∈ s.blocks)
    (hc : c ∈ s.blocks) :
    b = c ∨ b.toBlock.EndsBefore c.startLine ∨ c.toBlock.EndsBefore b.startLine := by
  obtain ⟨i, hi, rfl⟩ := List.getElem_of_mem hb
  obtain ⟨j, hj, rfl⟩ := List.getElem_of_mem hc
  have hpairs := List.pairwise_iff_getElem.mp hs.ordered
  rcases Nat.lt_trichotomy i j with hij | rfl | hij
  · exact Or.inr (Or.inl (hpairs i j hi hj hij))
  · exact Or.inl rfl
  · exact Or.inr (Or.inr (hpairs j i hj hi hij))

theorem Sound.startLine_ne_piece (hs : s.Sound n) {b c : ClosedBlock} (hb : b ∈ s.blocks)
    (hc : c ∈ s.blocks) {piece : Piece} (hpiece : piece ∈ c.pieces.toList) :
    b.startLine ≠ piece.line := by
  have hbehind := (hs.ended c hc).lt_piece hpiece
  rcases hs.same_or_apart hb hc with rfl | hapart | hapart
  · omega
  · have hlt := hapart.start_succ_lt
    omega
  · have hlt := hapart.piece_lt hpiece
    omega

theorem Sound.startLine_ne_succ (hs : s.Sound n) {b c : ClosedBlock} (hb : b ∈ s.blocks)
    (hc : c ∈ s.blocks) : c.startLine ≠ b.startLine + 1 := by
  rcases hs.same_or_apart hb hc with rfl | hapart | hapart
  · omega
  · have hlt := hapart.start_succ_lt
    omega
  · have hlt := hapart.start_succ_lt
    omega

theorem Sound.startLine_ne_lineAt (hs : s.Sound n)
    (h : s.program.debug.lineAt a = some line) : ∀ b ∈ s.blocks, b.startLine ≠ line := by
  obtain ⟨c, hc, piece, hpiece, -, -, rfl⟩ := lineAt_eq_some h
  exact fun b hb => hs.startLine_ne_piece hb hc hpiece

theorem Sound.apart (hs : s.Sound n) : s.program.debug.Apart := by
  constructor
  · intro a line h
    refine Bool.eq_false_iff.mpr fun hentry => ?_
    obtain ⟨b, hb, hstart⟩ := isEntryLine_eq_true hentry
    exact hs.startLine_ne_lineAt h b hb hstart
  · intro line h
    refine Bool.eq_false_iff.mpr fun hentry => ?_
    obtain ⟨b, hb, rfl⟩ := isEntryLine_eq_true h
    obtain ⟨c, hc, hstart⟩ := isEntryLine_eq_true hentry
    exact hs.startLine_ne_succ hb hc hstart

theorem length_flatMap_eq_extentsSize {α : Type} (xs : List α) (words : α → List Word)
    (extents : α → List Extent) (h : ∀ x, (words x).length = extentsSize (extents x)) :
    (xs.flatMap words).length = extentsSize (xs.flatMap extents) := by
  induction xs with
  | nil => rfl
  | cons x xs ih => simp only [List.flatMap_cons, List.length_append, extentsSize_append, h, ih]

/-- Linking resolves labels but keeps the number of words. -/
theorem words_length (b : ClosedBlock) (globals : Symbols) :
    (b.words globals).length = extentsSize b.extents := by
  rw [ClosedBlock.words, ClosedBlock.extents, Block.extents, List.length_append,
    extentsSize_append, List.map_eq_flatMap, List.map_eq_flatMap]
  congr 1
  · apply length_flatMap_eq_extentsSize
    intro piece
    simp [extentsSize, Piece.extent]
  · apply length_flatMap_eq_extentsSize
    intro literal
    simp [extentsSize, literalExtent]

theorem code_length (s : Layout) :
    s.program.code.length = extentsSize (s.blocks.flatMap (·.extents)) :=
  length_flatMap_eq_extentsSize s.blocks _ _ fun b => words_length b s.globals

/-- The words of the blocks fill memory up to the location that the layout has reached. -/
theorem Sound.code_length_eq (hs : s.Sound n) (hopened : s.opened = none) :
    s.program.code.length = s.location := by
  have htiles := hs.tiles
  rw [hopened] at htiles
  rw [code_length, htiles.last_eq]
  simp

theorem Sound.code_length_le (hs : s.Sound n) (hopened : s.opened = none) :
    s.program.code.length ≤ memorySize := by
  rw [hs.code_length_eq hopened]
  exact hs.tiles.last_le (Nat.zero_le _)

end Layout

end Assembly

theorem Machine.load_eq_ok {p : Program} {options : MachineOptions} {m : Machine}
    (h : Machine.load p options = .ok m) :
    m = { memory := .load p.code, pr := p.entry, options } := by
  unfold Machine.load at h
  split at h
  · cases h
  · exact (Except.ok.inj h).symm

theorem DebugMap.entrySubroutine_isSome {d : DebugMap} (h : d.subroutines ≠ []) :
    ∃ entry, d.entrySubroutine = some entry := by
  have hfold (f : Option Subroutine → Subroutine → Option Subroutine)
      (hf : ∀ best s, ∃ entry, f (some best) s = some entry) (rest : List Subroutine) :
      ∀ best, ∃ entry, rest.foldl f (some best) = some entry := by
    induction rest with
    | nil => exact fun best => ⟨best, rfl⟩
    | cons s rest ih =>
      intro best
      obtain ⟨entry, hentry⟩ := hf best s
      rw [List.foldl_cons, hentry]
      exact ih entry
  unfold entrySubroutine
  cases hsubroutines : d.subroutines with
  | nil => exact absurd hsubroutines h
  | cons s rest =>
    refine hfold _ ?_ rest s
    intro best s
    simp only
    split
    · exact ⟨s, rfl⟩
    · exact ⟨best, rfl⟩

theorem LineStepper.launch_eq {p : Program} {entry : Subroutine} {options : MachineOptions}
    {m : Machine} (stepper : LineStepper) (hentry : p.debug.entrySubroutine = some entry)
    (hload : Machine.load p options = .ok m) :
    stepper.launch { program := some p } options =
      (.ok [], { machine := m, program := some p, stack := .start entry.name }) := by
  simp [launch, hentry, hload]

section link

open Assembly

variable {s : Layout}

/-- Labels that are not defined are reported by linking, all else by the layout. -/
theorem Assembly.Layout.link_diagnostics (hnone : s.diagnostics = #[]) :
    s.link.diagnostics = s.blocks.flatMap (·.undefinedLabels s.globals) := by
  rw [link, if_pos (Array.isEmpty_iff.mpr hnone)]
  cases s.blocks.flatMap (·.undefinedLabels s.globals) <;> rfl

theorem Assembly.Layout.link_diagnostics_eq_nil_iff : s.link.diagnostics = [] ↔
    s.diagnostics = #[] ∧ s.blocks.flatMap (·.undefinedLabels s.globals) = [] := by
  by_cases hnone : s.diagnostics = #[]
  · rw [link_diagnostics hnone]
    exact (and_iff_right hnone).symm
  · rw [link, if_neg (by simpa using hnone)]
    simp [hnone]

theorem Assembly.Layout.link_eq_program (h : s.link.diagnostics = []) :
    s.link = { program := some s.program } := by
  obtain ⟨hnone, hdefined⟩ := link_diagnostics_eq_nil_iff.mp h
  rw [link, if_pos (Array.isEmpty_iff.mpr hnone), hdefined]

end link

section assemble

variable {source : String} {options : AssemblyOptions}

def layoutOf (source : String) (options : AssemblyOptions) : Assembly.Layout :=
  .ofLines options (Text.lines source.toList)

/-- Without diagnostics the answer of the assembler is the program of the layout. -/
theorem assemble_eq_program (h : (assemble source options).diagnostics = []) :
    (layoutOf source options).diagnostics = #[] ∧
      assemble source options = { program := some (layoutOf source options).program } := by
  have hlink : assemble source options = (layoutOf source options).link := rfl
  rw [hlink] at h ⊢
  exact ⟨(Assembly.Layout.link_diagnostics_eq_nil_iff.mp h).1, Assembly.Layout.link_eq_program h⟩

theorem layoutOf_sound (h : (assemble source options).diagnostics = []) :
    (layoutOf source options).Sound (Text.lines source.toList).length :=
  Assembly.Layout.sound_ofLines (assemble_eq_program h).1

theorem layoutOf_blocks_ne_nil (h : (assemble source options).diagnostics = []) :
    (layoutOf source options).blocks ≠ [] := by
  obtain ⟨-, hopened, hstarted⟩ := Assembly.Layout.ofLines_eq_addLines (assemble_eq_program h).1
  exact (layoutOf_sound h).started hstarted hopened

/-- The layout stops at the end of memory, so what has been accepted is not too large to load. -/
theorem layoutOf_code_length_le (h : (assemble source options).diagnostics = []) :
    (layoutOf source options).program.code.length ≤ memorySize := by
  have hopened := (Assembly.Layout.ofLines_eq_addLines (assemble_eq_program h).1).2.1
  exact (layoutOf_sound h).code_length_le hopened

theorem layoutOf_loads (machine : MachineOptions) (h : (assemble source options).diagnostics = []) :
    ∃ m, Machine.load (layoutOf source options).program machine = .ok m :=
  ⟨_, if_neg (Nat.not_lt.mpr (layoutOf_code_length_le h))⟩

/-- What the assembler has accepted can be launched, in a stepper with whatever past. -/
theorem launch_assembled (stepper : LineStepper) (machine : MachineOptions)
    (h : (assemble source options).diagnostics = []) :
    ∃ m entry, Machine.load (layoutOf source options).program machine = .ok m ∧
      stepper.launch (assemble source options) machine = (.ok [],
        { machine := m, program := some (layoutOf source options).program,
          stack := .start entry }) := by
  obtain ⟨-, hassemble⟩ := assemble_eq_program h
  obtain ⟨m, hload⟩ := layoutOf_loads machine h
  have hsubroutines : (layoutOf source options).program.debug.subroutines ≠ [] := by
    simpa [Assembly.Layout.program, Assembly.Layout.debugMap] using layoutOf_blocks_ne_nil h
  obtain ⟨entry, hentry⟩ := DebugMap.entrySubroutine_isSome hsubroutines
  exact ⟨m, entry.name, hload, by rw [hassemble, LineStepper.launch_eq stepper hentry hload]⟩

end assemble

end Comet
