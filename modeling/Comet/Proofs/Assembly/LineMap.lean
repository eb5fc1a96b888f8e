import Comet.Proofs.Assembly.Image

namespace Comet

namespace Mnemonic

theorem ofOpcode?_opcode (m : Mnemonic) : ofOpcode? m.opcode = some m := by
  have hall : ∀ m ∈ all, ofOpcode? m.opcode = some m := by decide
  exact hall m (mem_all m)

/-- The operation codes for two registers are no other operation codes. -/
theorem ofOpcode?_registerOpcode {m : Mnemonic} {code : UInt8} (h : m.registerOpcode = some code) :
    ofOpcode? code = none ∧ ofRegisterOpcode? code = some m := by
  have hall : ∀ m ∈ all, (m.registerOpcode.all fun code =>
      ofOpcode? code = none ∧ ofRegisterOpcode? code = some m) = true := by decide
  have hm := hall m (mem_all m)
  rw [h, Option.all_some] at hm
  exact of_decide_eq_true hm

end Mnemonic

namespace Assembly

/-- What is encoded is decoded, where an address is taken from the next word. -/
theorem SymbolicInstruction.WellFormed.decode_encode {i : SymbolicInstruction} (hi : i.WellFormed)
    (next : Word) :
    Instruction.decode (Instruction.encode i.opcode i.r i.x) next =
      some ⟨i.mnemonic, i.r, i.x, i.operand.map fun _ => next⟩ := by
  obtain ⟨m, r, x, operand⟩ := i
  simp only [Instruction.decode, Instruction.opcodeField_encode, Instruction.rField_encode,
    Instruction.xField_encode]
  cases operand with
  | some c =>
    have haddress := hi.address rfl
    simp only [opcode, Mnemonic.ofOpcode?_opcode, haddress, if_true, Option.map_some]
  | none =>
    cases hregister : m.registerOpcode with
    | some code =>
      obtain ⟨hnone, hsome⟩ := Mnemonic.ofOpcode?_registerOpcode hregister
      simp only [opcode, hregister, hnone, hsome, Option.map_some, Option.map_none]
    | none =>
      have hplain : m.form.hasAddress = false := by
        by_contra haddress
        have hsome := hi.register rfl (by simpa using haddress)
        simp [hregister] at hsome
      simp [opcode, hregister, Mnemonic.ofOpcode?_opcode, hplain]

/-- The lines by address are those of the instructions among the slots from a location on. -/
def Marks (location : Nat) (lines : List (Word × Nat)) (slots : List Slot) : Prop :=
  ∀ a : Word, lines.lookup a =
    if a.toNat < location then none else (slots[a.toNat - location]?.bind (·.first)).map (·.1)

section marks

variable {location line : Nat} {lines lines' : List (Word × Nat)} {slots slots' : List Slot}
  {lb : ListingBlock}

theorem Marks.plain (location : Nat) (h : ∀ slot ∈ slots, slot.first = none) :
    Marks location [] slots := by
  intro a
  split
  · rfl
  · cases hslot : slots[a.toNat - location]? with
    | none => rfl
    | some slot =>
      rw [Option.bind_some, h slot (List.mem_of_getElem? hslot)]
      rfl

theorem Marks.append (h : Marks location lines slots)
    (h' : Marks (location + slots.length) lines' slots') :
    Marks location (lines ++ lines') (slots ++ slots') := by
  intro a
  rw [List.lookup_append, h a, h' a]
  by_cases hbefore : a.toNat < location
  · rw [if_pos hbefore, if_pos (by omega), if_pos hbefore]
    rfl
  · rw [if_neg hbefore, if_neg hbefore]
    by_cases hfirst : a.toNat < location + slots.length
    · rw [if_pos hfirst, Option.or_none, List.getElem?_append_left (by omega)]
    · have hbehind : slots.length ≤ a.toNat - location := by omega
      rw [if_neg hfirst, List.getElem?_append_right hbehind, List.getElem?_eq_none hbehind,
        Nat.sub_sub]
      rfl

theorem Marks.instruction {i : SymbolicInstruction} (hfree : location < memorySize) :
    Marks location [(.ofNat location, line)] (i.slots lb line) := by
  have hfirst : Marks location [(.ofNat location, line)]
      [⟨lb, .value (Instruction.encode i.opcode i.r i.x), some (line, i)⟩] := by
    intro a
    rw [List.lookup_cons, List.lookup_nil]
    by_cases ha : a = UInt16.ofNat location
    · simp [ha, UInt16.toNat_ofNat_of_lt' hfree]
    · have hne : a.toNat ≠ location := by
        intro htoNat
        exact ha (by rw [← htoNat, UInt16.ofNat_toNat])
      rw [beq_eq_false_iff_ne.mpr ha]
      by_cases hbefore : a.toNat < location
      · rw [if_pos hbefore]
      · rw [if_neg hbefore, List.getElem?_eq_none (by simp only [List.length_singleton]; omega)]
        rfl
  have hoperand : ∀ slot ∈ i.operand.toList.map fun c => (⟨lb, c, none⟩ : Slot),
      slot.first = none := by
    simp
  exact hfirst.append (.plain _ hoperand)

/-- The addresses of the instructions among the pieces, with their lines. -/
def lineEntries (pieces : List Piece) : List (Word × Nat) :=
  pieces.filterMap fun piece =>
    if piece.isInstruction then some (piece.address, piece.line) else none

theorem Marks.code {is : List SymbolicInstruction}
    (hfits : location + (is.flatMap (·.cells)).length ≤ memorySize) :
    Marks location (lineEntries (instructionPieces line location is))
      (is.flatMap (·.slots lb line)) := by
  induction is generalizing location with
  | nil => exact .plain _ (by simp)
  | cons i rest ih =>
    rw [List.flatMap_cons, List.length_append] at hfits
    have hpositive : 0 < i.cells.length := by simp [SymbolicInstruction.cells]
    have hrest : Marks (location + (i.slots lb line).length)
        (lineEntries (instructionPieces line (location + i.cells.length) rest))
        (rest.flatMap (·.slots lb line)) := by
      rw [i.length_slots]
      exact ih (by omega)
    exact (Marks.instruction (by omega)).append hrest

theorem Marks.content {content : Content}
    (hfits : location + content.cells.length ≤ memorySize) :
    Marks location (lineEntries (content.pieces line location)) (content.slots lb line) := by
  cases content with
  | data cells => exact .plain _ (by simp [Content.slots])
  | code is => exact .code hfits

theorem lineEntries_append (xs ys : List Piece) :
    lineEntries (xs ++ ys) = lineEntries xs ++ lineEntries ys :=
  List.filterMap_append

theorem Marks.body {body : List ListingLine} (h : LinesFrom location body)
    (hfits : location + (body.flatMap (·.content.cells)).length ≤ memorySize) :
    Marks location (lineEntries (body.flatMap (·.pieces)))
      (body.flatMap fun l => l.content.slots lb l.line) := by
  induction body generalizing location with
  | nil => exact .plain _ (by simp)
  | cons l rest ih =>
    obtain ⟨rfl, hrest⟩ := h
    rw [List.flatMap_cons, List.length_append] at hfits
    rw [List.flatMap_cons, List.flatMap_cons, lineEntries_append]
    apply Marks.append
    · exact .content (by omega)
    · rw [Content.length_slots]
      exact ih hrest (by omega)

/-- No instruction begins among the literals. -/
theorem ListingBlock.first_of_literal (lb : ListingBlock) :
    ∀ slot ∈ lb.literals.flatten.map fun w => (⟨lb, .value w, none⟩ : Slot),
      slot.first = none := by
  intro slot hslot
  obtain ⟨w, -, rfl⟩ := List.mem_map.mp hslot
  rfl

theorem Marks.block (hlb : lb.Sound) (hfits : lb.origin + lb.slots.length ≤ memorySize) :
    Marks lb.origin (lineEntries (lb.body.flatMap (·.pieces))) lb.slots := by
  rw [lb.length_slots] at hfits
  have hbody : Marks lb.origin (lineEntries (lb.body.flatMap (·.pieces)))
      (lb.body.flatMap fun l => l.content.slots lb l.line) :=
    .body hlb.counted (by rw [ListingBlock.statementCells] at hfits; omega)
  rw [← List.append_nil (lineEntries _)]
  exact hbody.append (.plain _ lb.first_of_literal)

theorem Marks.blocks {blocks : List ListingBlock} (h : BlocksFrom location blocks)
    (hfits : location + (image blocks).length ≤ memorySize) :
    Marks location (blocks.flatMap fun lb => lineEntries (lb.body.flatMap (·.pieces)))
      (image blocks) := by
  induction blocks generalizing location with
  | nil => exact .plain _ (by simp [image])
  | cons lb rest ih =>
    obtain ⟨rfl, hlb, hrest⟩ := h
    rw [image_cons, List.length_append] at hfits
    rw [image_cons, List.flatMap_cons]
    exact (Marks.block hlb (by omega)).append (ih hrest (by omega))

end marks

/-- The line map of a layout has the first words of the instructions of the image. -/
theorem Layout.Realizes.lineAt_eq {options : AssemblyOptions} {blocks : List ListingBlock}
    {s : Layout} (hs : s.Realizes options blocks none) (hfrom : BlocksFrom 0 blocks)
    (hfits : s.program.code.length ≤ memorySize) (a : Word) :
    s.program.debug.lineAt a = ((image blocks)[a.toNat]?.bind (·.first)).map (·.1) := by
  have hentries : s.blocks.flatMap (·.instructionLines) =
      blocks.flatMap fun lb => lineEntries (lb.body.flatMap (·.pieces)) := by
    have hblock (b : ClosedBlock) (lb : ListingBlock)
        (hb : b.Realizes options s.globals blocks lb) :
        List.Forall₂ (· = ·) b.instructionLines (lineEntries (lb.body.flatMap (·.pieces))) := by
      rw [List.forall₂_eq_eq_eq, ← hb.pieces]
      rfl
    have hall : List.Forall₂ (· = ·) (s.blocks.flatMap (·.instructionLines))
        (blocks.flatMap fun lb => lineEntries (lb.body.flatMap (·.pieces))) :=
      List.rel_flatMap hs.closed hblock
    rwa [List.forall₂_eq_eq_eq] at hall
  have hlookup : s.program.debug.lineAt a = (s.blocks.flatMap (·.instructionLines)).lookup a :=
    AddressMap.get?_foldr_insert _ a
  have hmarks := Marks.blocks hfrom (by rw [hs.length_image]; omega)
  rw [hlookup, hentries, hmarks a, if_neg (Nat.not_lt_zero _), Nat.sub_zero]

/-- Where an instruction begins among the slots, all its words follow. -/
def Opens (slots : List Slot) : Prop :=
  ∀ a slot line i, slots[a]? = some slot → slot.first = some (line, i) → i.WellFormed ∧
    ∃ before behind, slots = before ++ i.slots slot.block line ++ behind ∧ before.length = a

section opens

variable {slots slots' : List Slot} {lb : ListingBlock} {line : Nat}

theorem Opens.plain (h : ∀ slot ∈ slots, slot.first = none) : Opens slots := by
  intro a slot line i hslot hfirst
  rw [h slot (List.mem_of_getElem? hslot)] at hfirst
  cases hfirst

theorem Opens.append (h : Opens slots) (h' : Opens slots') : Opens (slots ++ slots') := by
  intro a slot line i hslot hfirst
  by_cases hbefore : a < slots.length
  · rw [List.getElem?_append_left hbefore] at hslot
    obtain ⟨hi, before, behind, rfl, ha⟩ := h a slot line i hslot hfirst
    exact ⟨hi, before, behind ++ slots', by simp, ha⟩
  · rw [List.getElem?_append_right (by omega)] at hslot
    obtain ⟨hi, before, behind, rfl, ha⟩ := h' _ slot line i hslot hfirst
    refine ⟨hi, slots ++ before, behind, by simp, ?_⟩
    rw [List.length_append, ha]
    omega

theorem Opens.flatMap {α : Type} {xs : List α} {f : α → List Slot} (h : ∀ x ∈ xs, Opens (f x)) :
    Opens (xs.flatMap f) := by
  induction xs with
  | nil => exact .plain (by simp)
  | cons x rest ih =>
    rw [List.flatMap_cons]
    exact (h x List.mem_cons_self).append (ih fun y hy => h y (List.mem_cons_of_mem _ hy))

theorem Opens.instruction {i : SymbolicInstruction} (hi : i.WellFormed) :
    Opens (i.slots lb line) := by
  intro a slot line' i' hslot hfirst
  cases a with
  | zero =>
    simp only [SymbolicInstruction.slots, List.getElem?_cons_zero, Option.some.injEq] at hslot
    subst hslot
    cases hfirst
    exact ⟨hi, [], [], by simp, rfl⟩
  | succ a =>
    simp only [SymbolicInstruction.slots, List.getElem?_cons_succ, List.getElem?_map,
      Option.map_eq_some_iff] at hslot
    obtain ⟨c, -, rfl⟩ := hslot
    cases hfirst

theorem Opens.content {content : Content} (h : content.WellFormed) :
    Opens (content.slots lb line) := by
  cases content with
  | data cells => exact .plain (by simp [Content.slots])
  | code is => exact .flatMap fun i hi => .instruction (h i hi)

theorem Opens.image {blocks : List ListingBlock} (h : BlocksFrom 0 blocks) :
    Opens (image blocks) := by
  refine .flatMap fun lb hlb => ?_
  obtain ⟨hsound, -⟩ := h.exists_before hlb
  apply Opens.append
  · exact .flatMap fun l hl => .content (hsound.wellFormed l hl)
  · exact .plain lb.first_of_literal

end opens

/-- The instruction has been decoded as it is written in the block. -/
structure SymbolicInstruction.Decoded (options : AssemblyOptions) (blocks : List ListingBlock)
    (b : ListingBlock) (i : SymbolicInstruction) (d : Instruction) : Prop where
  mnemonic : d.mnemonic = i.mnemonic
  r : d.r = i.r
  x : d.x = i.x
  adr : Option.Rel (Denotes options blocks b) i.operand d.adr
  size : d.size.toNat = i.cells.length

theorem exists_of_forall₂_getElem? {α β : Type} {R : α → β → Prop} {xs : List α} {ys : List β}
    (h : List.Forall₂ R xs ys) {k : Nat} {x : α} (hx : xs[k]? = some x) :
    ∃ y, ys[k]? = some y ∧ R x y := by
  induction h generalizing k with
  | nil => cases hx
  | cons hr _ ih =>
    cases k with
    | zero =>
      cases hx
      exact ⟨_, rfl, hr⟩
    | succ k => exact ih hx

/-- Where an instruction begins in the image, the code has its first word. -/
theorem Image.first_word {options : AssemblyOptions} {blocks : List ListingBlock} {code : List Word}
    (h : Image options blocks code) {a line : Nat} {slot : Slot} {i : SymbolicInstruction}
    (hslot : (image blocks)[a]? = some slot) (hfirst : slot.first = some (line, i)) :
    i.WellFormed ∧ code[a]? = some (Instruction.encode i.opcode i.r i.x) := by
  obtain ⟨hi, before, behind, himage, rfl⟩ := Opens.image h.counted _ _ _ _ hslot hfirst
  have hwords := h.words
  rw [himage, List.append_assoc] at hwords
  obtain ⟨w, hw, hvalue⟩ := exists_of_forall₂_getElem? (k := before.length) hwords
    (by rw [List.getElem?_append_right (Nat.le_refl _), Nat.sub_self]; rfl)
  obtain rfl : w = Instruction.encode i.opcode i.r i.x := hvalue
  exact ⟨hi, hw⟩

/-- Where an instruction begins in the image, it is decoded from the code. -/
theorem Image.decoded {options : AssemblyOptions} {blocks : List ListingBlock} {code : List Word}
    (h : Image options blocks code) {a line : Nat} {slot : Slot} {i : SymbolicInstruction}
    (hslot : (image blocks)[a]? = some slot) (hfirst : slot.first = some (line, i)) :
    ∃ d, Instruction.decode (code.getD a 0) (code.getD (a + 1) 0) = some d ∧
      i.Decoded options blocks slot.block d := by
  obtain ⟨hi, hw⟩ := h.first_word hslot hfirst
  obtain ⟨-, before, behind, himage, rfl⟩ := Opens.image h.counted _ _ _ _ hslot hfirst
  have hwords := h.words
  rw [himage, List.append_assoc] at hwords
  rw [List.getD_eq_getElem?_getD, hw, Option.getD_some, hi.decode_encode]
  refine ⟨_, rfl, rfl, rfl, rfl, ?_, ?_⟩
  · cases hoperand : i.operand with
    | none => exact .none
    | some c =>
      obtain ⟨w, hw, hdenotes⟩ := exists_of_forall₂_getElem? (k := before.length + 1) hwords
        (x := ⟨slot.block, c, none⟩) (by
          rw [List.getElem?_append_right (Nat.le_add_right _ 1),
            Nat.add_sub_cancel_left]
          simp [SymbolicInstruction.slots, hoperand])
      rw [Option.map_some, List.getD_eq_getElem?_getD, hw]
      exact .some hdenotes
  · cases hoperand : i.operand <;> simp [Instruction.size, SymbolicInstruction.cells, hoperand]

end Assembly

section assemble

variable {source : String} {options : AssemblyOptions}

/-- Assembler, decoder and line map agree. The line map has exactly the first words of the listed
instructions, each with its line, and at each of them the decoder finds what was written there. -/
theorem line_map_and_decoder_agree_with_listing (h : (assemble source options).diagnostics = []) :
    ∃ p blocks, (assemble source options).program = some p ∧
      listing source options = some blocks ∧
      (∀ a : Word, p.debug.lineAt a =
        ((Assembly.image blocks)[a.toNat]?.bind (·.first)).map (·.1)) ∧
      ∀ a slot line i, (Assembly.image blocks)[a]? = some slot → slot.first = some (line, i) →
        ∃ d, Instruction.decode (p.code.getD a 0) (p.code.getD (a + 1) 0) = some d ∧
          i.Decoded options blocks slot.block d := by
  obtain ⟨-, hassemble⟩ := assemble_eq_program h
  obtain ⟨blocks, hlisted, hrealizes, hfrom⟩ := listing_of_assemble h
  refine ⟨_, blocks, by rw [hassemble], hlisted, ?_, ?_⟩
  · exact hrealizes.lineAt_eq hfrom (layoutOf_code_length_le h)
  · intro a slot line i hslot hfirst
    exact (hrealizes.image_of_assemble h hfrom).decoded hslot hfirst

end assemble

/-- The literal of the load stands behind the data, and `IN` is seven instructions. -/
def mixedSource : String :=
  "MAIN START\n IN BUF,=3\n ADDA GR1,GR2\n LD GR3,=7,GR1\n RET\nBUF DS 2\n END\n"

theorem mixed_source_decoded_as_listed : ∃ p blocks,
    (assemble mixedSource {}).program = some p ∧ listing mixedSource {} = some blocks ∧
      p.debug.lineAt 11 = some 1 ∧ p.debug.lineAt 14 = none ∧
      ∃ d, Instruction.decode (p.code.getD 13 0) (p.code.getD 14 0) = some d ∧
        d.mnemonic = .ld ∧ d.r = 3 ∧ d.x = 1 ∧ d.size.toNat = 2 := by
  have hnone : (assemble mixedSource {}).diagnostics = [] := by decide +kernel
  obtain ⟨p, blocks, hp, hlisted, hlines, hdecoded⟩ :=
    line_map_and_decoder_agree_with_listing hnone
  have hfirst : (listing mixedSource {}).map (fun blocks => [11, 13, 14].map fun a =>
        (Assembly.image blocks)[a]?.bind (·.first)) =
      some [some (1, .restore 1), some (3, ⟨.ld, 3, 1, some (.literal [7])⟩), none] := by
    decide +kernel
  rw [hlisted] at hfirst
  simp only [Option.map_some, List.map_cons, List.map_nil, Option.some.injEq,
    List.cons.injEq] at hfirst
  obtain ⟨hrestore, hload, hsecond, -⟩ := hfirst
  obtain ⟨slot, hslot, hload⟩ := Option.bind_eq_some_iff.mp hload
  obtain ⟨d, hd, hwritten⟩ := hdecoded 13 slot 3 _ hslot hload
  refine ⟨p, blocks, hp, hlisted, ?_, ?_, d, hd, hwritten.mnemonic, hwritten.r, hwritten.x,
    hwritten.size⟩
  · rw [hlines 11]
    exact congrArg (·.map (·.1)) hrestore
  · rw [hlines 14]
    exact congrArg (·.map (·.1)) hsecond

end Comet
