import Comet.Proofs.Assembly.Linked
import Comet.Proofs.Assembly.Realized
import Mathlib.Data.List.Induction

namespace Comet

namespace Assembly

section names

variable {options : AssemblyOptions} {blocks : List ListingBlock} {s : Layout} {lb : ListingBlock}

namespace Layout.Realizes

/-- What a name means is what it resolves to. -/
theorem resolve_of_names {name : String} {a : Nat} (hs : s.Realizes options blocks none)
    (hlb : lb ∈ blocks) (h : Names options blocks lb name a) {b : Block}
    (hb : b.Realizes options lb) : ∃ w, b.resolve s.globals name = some w ∧ w.toNat = a := by
  have hclosed {lb c : ListingBlock} {b : Block} (hb : b.Realizes options lb)
      (hown : ∀ l ∈ lb.body, l.label ≠ some c.name) {cc : ClosedBlock} (hcc : cc ∈ s.blocks)
      (hc : cc.Realizes options s.globals blocks c) :
      b.resolve s.globals c.name = some cc.entry := by
    have hmem : (c.name, cc.entry) ∈ s.globals :=
      (hs.globals _ _).mpr (Or.inl ⟨cc, hcc, hc.name, rfl⟩)
    rw [resolve_foreign hb hown, lookup_of_mem hs.globalsNodup hmem]
  -- By induction on why the name means that: an entry label is resolved in the block that it is of.
  induction h generalizing b with
  | own hl hlabel =>
    refine ⟨_, hs.resolve_own hb (by simpa using hlb) hl hlabel, hb.toNat_ofNat hl hlabel⟩
  | shared hscope hc hl hlabel =>
    obtain ⟨cc, -, hrealizes⟩ := hs.exists_closed hc
    refine ⟨_, hs.resolve_shared hb hscope (by simpa using hc) hl hlabel, ?_⟩
    exact hrealizes.toNat_ofNat hl hlabel
  | origin hown hc hentry =>
    obtain ⟨cc, hcc, hrealizes⟩ := hs.exists_closed hc
    refine ⟨_, hclosed hb hown hcc hrealizes, ?_⟩
    have henters := hrealizes.enters
    simpa [ListingBlock.EntersAt, hentry] using henters
  | entry hown hc hentry _ ih =>
    obtain ⟨cc, hcc, hrealizes⟩ := hs.exists_closed hc
    obtain ⟨w, hw, ha⟩ := ih hc hrealizes.toRealizes
    have henters := hrealizes.entry
    simp only [Block.entry?, hrealizes.entryLabel, hentry] at henters
    obtain rfl : w = cc.entry := Option.some.inj (hw.symm.trans henters)
    exact ⟨_, hclosed hb hown hcc hrealizes, ha⟩

theorem names_iff {name : String} {w : Word} (hs : s.Realizes options blocks none)
    (hlb : lb ∈ blocks) {b : Block} (hb : b.Realizes options lb)
    (hw : b.resolve s.globals name = some w) (a : Nat) :
    Names options blocks lb name a ↔ a = w.toNat := by
  constructor
  · intro h
    obtain ⟨w', hw', ha⟩ := hs.resolve_of_names hlb h hb
    obtain rfl : w = w' := Option.some.inj (hw.symm.trans hw')
    exact ha.symm
  · rintro rfl
    simpa using hs.names_of_resolve hb (by simpa using hlb) hw

/-- The entry of a block has one address, which is what its entry label resolves to. -/
theorem entersAt_iff (hs : s.Realizes options blocks none) (hlb : lb ∈ blocks)
    {b : ClosedBlock} (hb : b.Realizes options s.globals blocks lb) {a : Nat} :
    lb.EntersAt options blocks a ↔ a = b.entry.toNat := by
  constructor
  · intro h
    have hentry := hb.entry
    have henters := hb.enters
    simp only [ListingBlock.EntersAt, Block.entry?, hb.entryLabel] at h henters hentry
    cases hlabel : lb.entryLabel with
    | none =>
      rw [hlabel] at h henters
      exact Eq.trans h (Eq.symm henters)
    | some label =>
      rw [hlabel] at h hentry
      exact (hs.names_iff hlb hb.toRealizes hentry a).mp h
  · rintro rfl
    exact hb.enters

end Layout.Realizes
end names

section pool

theorem mem_placeWords {o a : Nat} {literals : List (List Word)} {words : List Word} :
    (words, a) ∈ placeWords o literals ↔ ∃ before behind, literals = before ++ words :: behind ∧
      a = o + before.flatten.length := by
  induction literals generalizing o with
  | nil => simp [placeWords]
  | cons first rest ih =>
    rw [placeWords, List.mem_cons, ih]
    constructor
    · rintro (⟨⟨⟩⟩ | ⟨before, behind, rfl, rfl⟩)
      · exact ⟨[], rest, rfl, rfl⟩
      · refine ⟨first :: before, behind, rfl, ?_⟩
        rw [List.flatten_cons, List.length_append, Nat.add_assoc]
    · rintro ⟨_ | ⟨_, before⟩, behind, hliterals, rfl⟩
      · cases hliterals
        exact Or.inl rfl
      · cases hliterals
        refine Or.inr ⟨before, behind, rfl, ?_⟩
        rw [List.flatten_cons, List.length_append, Nat.add_assoc]

theorem map_fst_placeWords (o : Nat) (literals : List (List Word)) :
    (placeWords o literals).map (·.1) = literals := by
  induction literals generalizing o with
  | nil => rfl
  | cons first rest ih => rw [placeWords, List.map_cons, ih]

theorem nodup_eraseDups (xs : List (List Word)) : xs.eraseDups.Nodup := by
  induction xs using List.reverseRecOn with
  | nil => exact .nil
  | append_singleton xs words ih =>
    rw [eraseDups_concat]
    by_cases hmem : words ∈ xs
    · rw [if_pos hmem]
      exact ih
    · rw [if_neg hmem]
      refine List.nodup_append.mpr ⟨ih, by simp, ?_⟩
      rintro other hother _ hwords rfl
      obtain rfl := List.mem_singleton.mp hwords
      exact hmem (List.mem_eraseDups.mp hother)

theorem ListingBlock.literals_nodup (b : ListingBlock) : b.literals.Nodup := nodup_eraseDups _

/-- Literals are put one behind the other. -/
theorem pairwise_placeWords (o : Nat) (literals : List (List Word)) :
    (placeWords o literals).Pairwise fun p q => p.2 + p.1.length ≤ q.2 := by
  induction literals generalizing o with
  | nil => exact .nil
  | cons first rest ih =>
    refine .cons ?_ (ih _)
    rintro ⟨words, a⟩ hmem
    obtain ⟨before, behind, -, rfl⟩ := mem_placeWords.mp hmem
    exact Nat.le_add_right _ _

theorem ListingBlock.Sound.literal_ne_nil {b : ListingBlock} (hb : b.Sound) {words : List Word}
    (hwords : words ∈ b.literals) : words ≠ [] := by
  obtain ⟨c, hc, hliteral⟩ := List.mem_filterMap.mp (List.mem_eraseDups.mp hwords)
  obtain ⟨l, hl, hmem⟩ := List.mem_flatMap.mp hc
  have hwell := hb.wellFormed l hl
  cases hcontent : l.content with
  | data cells =>
    rw [hcontent] at hwell hmem
    rw [hwell c hmem] at hliteral
    cases hliteral
  | code instructions =>
    rw [hcontent] at hwell hmem
    obtain ⟨i, hi, hcell⟩ := List.mem_flatMap.mp hmem
    rcases List.mem_cons.mp hcell with rfl | hoperand
    · cases hliteral
    · have hoperand := Option.mem_toList.mp hoperand
      cases c with
      | literal words' =>
        cases hliteral
        exact (hwell i hi).literal _ hoperand
      | value | label => cases hliteral

end pool

section words

theorem instructionPieces_cells (line location : Nat) (is : List SymbolicInstruction) :
    (instructionPieces line location is).flatMap (·.cells) = is.flatMap (·.cells) := by
  induction is generalizing location with
  | nil => rfl
  | cons i rest ih => rw [instructionPieces, List.flatMap_cons, List.flatMap_cons, ih]

theorem Content.flatMap_cells_pieces (line location : Nat) (content : Content) :
    (content.pieces line location).flatMap (·.cells) = content.cells := by
  cases content with
  | data cells => exact List.append_nil cells
  | code is => exact instructionPieces_cells line location is

variable {options : AssemblyOptions} {blocks : List ListingBlock} {s : Layout} {lb : ListingBlock}
  {b : ClosedBlock}

theorem ListingBlock.map_cell_slots (lb : ListingBlock) :
    lb.slots.map (·.cell) = lb.statementCells ++ lb.literals.flatten.map .value := by
  simp [slots, statementCells, List.map_flatMap, Content.map_cell_slots, Function.comp_def]

theorem Content.block_of_mem_slots {line : Nat} {content : Content} {slot : Slot}
    (h : slot ∈ content.slots lb line) : slot.block = lb := by
  cases content with
  | data cells =>
    obtain ⟨c, -, rfl⟩ := List.mem_map.mp h
    rfl
  | code is =>
    obtain ⟨i, -, hmem⟩ := List.mem_flatMap.mp h
    rcases List.mem_cons.mp hmem with rfl | hoperand
    · rfl
    · obtain ⟨c, -, rfl⟩ := List.mem_map.mp hoperand
      rfl

theorem ListingBlock.block_of_mem_slots {slot : Slot} (h : slot ∈ lb.slots) : slot.block = lb := by
  rcases List.mem_append.mp h with hstatement | hliteral
  · obtain ⟨l, -, hmem⟩ := List.mem_flatMap.mp hstatement
    exact Content.block_of_mem_slots hmem
  · obtain ⟨w, -, rfl⟩ := List.mem_map.mp hliteral
    rfl

theorem ClosedBlock.Realizes.flatMap_cells {globals : Symbols}
    (hb : b.Realizes options globals blocks lb) :
    b.pieces.toList.flatMap (·.cells) = lb.statementCells := by
  rw [hb.pieces, List.flatMap_assoc]
  simp only [ListingLine.pieces, Content.flatMap_cells_pieces]
  rfl

/-- The words of a block are the values of the listed cells. -/
theorem ClosedBlock.Realizes.words_eq {globals : Symbols}
    (hb : b.Realizes options globals blocks lb) :
    b.words globals = lb.slots.map fun slot => (b.cellValue? globals slot.cell).getD 0 := by
  have hpieces : (b.pieces.toList.flatMap fun piece =>
        piece.cells.map fun c => (b.cellValue? globals c).getD 0) =
      lb.statementCells.map fun c => (b.cellValue? globals c).getD 0 := by
    rw [← List.map_flatMap, hb.flatMap_cells]
  have hpool : b.pool.flatMap (·.1) = lb.literals.flatten := by
    rw [hb.pool, placePool, List.flatMap_map, List.flatMap_def]
    exact congrArg List.flatten (map_fst_placeWords _ _)
  have hslots : (lb.slots.map fun slot => (b.cellValue? globals slot.cell).getD 0) =
      (lb.slots.map (·.cell)).map fun c => (b.cellValue? globals c).getD 0 := by
    rw [List.map_map]
    rfl
  rw [words, hpieces, hpool, hslots, lb.map_cell_slots, List.map_append, List.map_map]
  simp [Function.comp_def, cellValue?]

theorem image_append (xs ys : List ListingBlock) : image (xs ++ ys) = image xs ++ image ys :=
  List.flatMap_append

theorem image_cons (lb : ListingBlock) (rest : List ListingBlock) :
    image (lb :: rest) = lb.slots ++ image rest :=
  List.flatMap_cons

/-- A block begins behind the words of all blocks before it. -/
theorem BlocksFrom.exists_before {location : Nat} (h : BlocksFrom location blocks)
    (hlb : lb ∈ blocks) : lb.Sound ∧ ∃ before behind, blocks = before ++ lb :: behind ∧
      lb.origin = location + (image before).length := by
  induction blocks generalizing location with
  | nil => cases hlb
  | cons first rest ih =>
    obtain ⟨horigin, hfirst, hrest⟩ := h
    rcases List.mem_cons.mp hlb with rfl | hmem
    · exact ⟨hfirst, [], rest, rfl, horigin⟩
    · obtain ⟨hsound, before, behind, rfl, hbegins⟩ := ih hrest hmem
      refine ⟨hsound, first :: before, behind, rfl, ?_⟩
      rw [hbegins, image_cons, List.length_append, Nat.add_assoc]

theorem BlocksFrom.end_le (h : BlocksFrom 0 blocks) (hlb : lb ∈ blocks) :
    lb.origin + lb.slots.length ≤ (image blocks).length := by
  obtain ⟨-, before, behind, rfl, hbegins⟩ := h.exists_before hlb
  rw [image_append, image_cons, List.length_append, List.length_append]
  omega

/-- A literal is found in the pool at the one place that the listing has for it. -/
theorem ClosedBlock.Realizes.literal_denotes {globals : Symbols} {words : List Word}
    (hb : b.Realizes options globals blocks lb) (hsound : lb.Sound)
    (hfits : lb.origin + lb.slots.length ≤ memorySize) (hwords : words ∈ lb.literals) :
    ∃ w, b.pool.lookup words = some w ∧ ∀ a, (words, a) ∈ lb.pool ↔ a = w.toNat := by
  obtain ⟨before, behind, hliterals⟩ := List.append_of_mem hwords
  have hne := hsound.literal_ne_nil hwords
  set o := lb.origin + lb.statementCells.length with ho
  have hmem : (words, o + before.flatten.length) ∈ lb.pool :=
    mem_placeWords.mpr ⟨before, behind, hliterals, rfl⟩
  have hlt : o + before.flatten.length < memorySize := by
    have hpositive := List.length_pos_iff.mpr hne
    have hlength := lb.length_slots
    rw [hliterals, List.flatten_append, List.flatten_cons, List.length_append,
      List.length_append] at hlength
    omega
  have hpool : (words, UInt16.ofNat (o + before.flatten.length)) ∈ b.pool := by
    rw [hb.pool]
    exact List.mem_map.mpr ⟨_, hmem, rfl⟩
  have hnodup : (b.pool.map (·.1)).Nodup := by
    rw [hb.pool, placePool, List.map_map]
    exact (map_fst_placeWords _ _).symm ▸ lb.literals_nodup
  refine ⟨_, lookup_of_mem hnodup hpool, fun a => ?_⟩
  rw [UInt16.toNat_ofNat_of_lt' hlt]
  constructor
  · intro ha
    have hkeys : (lb.pool.map (·.1)).Nodup := (map_fst_placeWords _ _).symm ▸ lb.literals_nodup
    exact Option.some.inj ((lookup_of_mem hkeys ha).symm.trans (lookup_of_mem hkeys hmem))
  · rintro rfl
    exact hmem

/-- Every cell of a block is given the word that it denotes. -/
theorem Layout.Realizes.denotes {c : Cell} (hs : s.Realizes options blocks none)
    (hlb : lb ∈ blocks) (hb : b.Realizes options s.globals blocks lb) (hsound : lb.Sound)
    (hfits : lb.origin + lb.slots.length ≤ memorySize)
    (hdefined : ∀ name, .label name ∈ lb.statementCells → (b.resolve s.globals name).isSome = true)
    (hc : c ∈ lb.statementCells) :
    Denotes options blocks lb c ((b.cellValue? s.globals c).getD 0) := by
  cases c with
  | value w => rfl
  | label name =>
    obtain ⟨w, hw⟩ := Option.isSome_iff_exists.mp (hdefined name hc)
    rw [ClosedBlock.cellValue?, hw]
    exact hs.names_iff hlb hb.toRealizes hw
  | literal words =>
    have hwords : words ∈ lb.literals :=
      List.mem_eraseDups.mpr (List.mem_filterMap.mpr ⟨_, hc, rfl⟩)
    obtain ⟨w, hw, hpool⟩ := hb.literal_denotes hsound hfits hwords
    rw [ClosedBlock.cellValue?, hw]
    exact hpool

theorem forall₂_with_mem {α β : Type} {R : α → β → Prop} {xs : List α} {ys : List β}
    (h : List.Forall₂ R xs ys) : List.Forall₂ (fun x y => x ∈ xs ∧ y ∈ ys ∧ R x y) xs ys := by
  induction h with
  | nil => exact .nil
  | cons hr _ ih =>
    refine .cons ⟨List.mem_cons_self, List.mem_cons_self, hr⟩ (ih.imp ?_)
    rintro x y ⟨hx, hy, hr⟩
    exact ⟨List.mem_cons_of_mem _ hx, List.mem_cons_of_mem _ hy, hr⟩

theorem Layout.Realizes.length_image (hs : s.Realizes options blocks none) :
    (image blocks).length = s.program.code.length := by
  have hblock (lb : ListingBlock) (b : ClosedBlock)
      (hb : b.Realizes options s.globals blocks lb) :
      List.Forall₂ (fun _ _ => True) lb.slots (b.words s.globals) := by
    rw [hb.words_eq, List.forall₂_map_right_iff, List.forall₂_same]
    exact fun _ _ => trivial
  have hall : List.Forall₂ (fun _ _ => True) (image blocks) s.program.code :=
    List.rel_flatMap (List.Forall₂.flip hs.closed) hblock
  exact hall.length_eq

theorem ClosedBlock.isSome_resolve {globals : Symbols} (h : b.undefinedLabels globals = [])
    {piece : Piece} (hpiece : piece ∈ b.pieces.toList) {name : String}
    (hname : .label name ∈ piece.cells) : (b.resolve globals name).isSome = true := by
  have hnone := List.filterMap_eq_nil_iff.mp (List.flatMap_eq_nil_iff.mp h piece hpiece) _ hname
  by_contra hunresolved
  simp [hunresolved] at hnone

/-- The words of a layout without undefined labels are those of the image. -/
theorem Layout.Realizes.forall₂_image (hs : s.Realizes options blocks none)
    (hfrom : BlocksFrom 0 blocks) (hfits : s.program.code.length ≤ memorySize)
    (hdefined : ∀ b ∈ s.blocks, b.undefinedLabels s.globals = []) :
    List.Forall₂ (fun slot w => Denotes options blocks slot.block slot.cell w) (image blocks)
      s.program.code := by
  have hblock (lb : ListingBlock) (b : ClosedBlock)
      (h : lb ∈ blocks ∧ b ∈ s.blocks ∧ b.Realizes options s.globals blocks lb) :
      List.Forall₂ (fun slot w => Denotes options blocks slot.block slot.cell w) lb.slots
        (b.words s.globals) := by
    obtain ⟨hlb, hb, hrealizes⟩ := h
    obtain ⟨hsound, -⟩ := hfrom.exists_before hlb
    have hend := hfrom.end_le hlb
    rw [hs.length_image] at hend
    have hlabels (name : String) (hname : .label name ∈ lb.statementCells) :
        (b.resolve s.globals name).isSome = true := by
      rw [← hrealizes.flatMap_cells] at hname
      obtain ⟨piece, hpiece, hmem⟩ := List.mem_flatMap.mp hname
      exact ClosedBlock.isSome_resolve (hdefined b hb) hpiece hmem
    rw [hrealizes.words_eq, List.forall₂_map_right_iff, List.forall₂_same]
    intro slot hslot
    rw [ListingBlock.block_of_mem_slots hslot]
    have hcell : slot.cell ∈ lb.statementCells ++ lb.literals.flatten.map .value := by
      rw [← lb.map_cell_slots]
      exact List.mem_map_of_mem hslot
    rcases List.mem_append.mp hcell with hstatement | hliteral
    · exact hs.denotes hlb hrealizes hsound (Nat.le_trans hend hfits) hlabels hstatement
    · obtain ⟨w, -, hw⟩ := List.mem_map.mp hliteral
      rw [← hw]
      rfl
  have hpairs : List.Forall₂ (fun lb b => lb ∈ blocks ∧ b ∈ s.blocks ∧
      b.Realizes options s.globals blocks lb) blocks s.blocks :=
    forall₂_with_mem (List.Forall₂.flip hs.closed)
  exact List.rel_flatMap hpairs hblock

/-- The words of a literal stand together in the image where its place in the pool is. -/
theorem BlocksFrom.exists_literal (h : BlocksFrom 0 blocks) (hlb : lb ∈ blocks)
    {words : List Word} {a : Nat} (hpool : (words, a) ∈ lb.pool) :
    ∃ before behind, a = before.length ∧
      image blocks = before ++ words.map (fun w => ⟨lb, .value w, none⟩) ++ behind := by
  obtain ⟨-, before, behind, rfl, hbegins⟩ := h.exists_before hlb
  obtain ⟨used, unused, hliterals, rfl⟩ := mem_placeWords.mp hpool
  refine ⟨image before ++ lb.body.flatMap (fun l => l.content.slots lb l.line) ++
      used.flatten.map (fun w => ⟨lb, .value w, none⟩),
    unused.flatten.map (fun w => ⟨lb, .value w, none⟩) ++ image behind, ?_, ?_⟩
  · rw [hbegins]
    simp only [List.length_append, List.length_map, List.length_flatMap, Content.length_slots,
      ListingBlock.statementCells, Nat.zero_add]
  · rw [image_append, image_cons, ListingBlock.slots, hliterals]
    simp only [List.flatten_append, List.flatten_cons, List.map_append, List.append_assoc]

end words

/-- What the code of a program has to be, for the blocks of a listing: each word is what is listed
there, and each literal stands where its block has it in the pool. -/
structure Image (options : AssemblyOptions) (blocks : List ListingBlock) (code : List Word) :
    Prop where
  counted : BlocksFrom 0 blocks
  words : List.Forall₂ (fun slot w => Denotes options blocks slot.block slot.cell w) (image blocks)
    code
  literals : ∀ b ∈ blocks, ∀ words a, (words, a) ∈ b.pool →
    words ≠ [] ∧ (code.drop a).take words.length = words
  apart : ∀ b ∈ blocks, b.pool.Pairwise fun p q => p.1 ≠ q.1 ∧ p.2 + p.1.length ≤ q.2

theorem Image.of_words {options : AssemblyOptions} {blocks : List ListingBlock} {code : List Word}
    (hfrom : BlocksFrom 0 blocks)
    (hwords : List.Forall₂ (fun slot w => Denotes options blocks slot.block slot.cell w)
      (image blocks) code) : Image options blocks code := by
  refine ⟨hfrom, hwords, ?_, ?_⟩
  · intro b hb words a hpool
    obtain ⟨hsound, -⟩ := hfrom.exists_before hb
    have hmem : words ∈ b.literals := by
      rw [← map_fst_placeWords _ b.literals]
      exact List.mem_map_of_mem hpool
    refine ⟨hsound.literal_ne_nil hmem, ?_⟩
    obtain ⟨before, behind, rfl, himage⟩ := hfrom.exists_literal hb hpool
    have hrun := List.forall₂_take words.length (List.forall₂_drop before.length hwords)
    rw [himage, List.append_assoc, List.drop_left, List.take_left' (by simp),
      List.forall₂_map_left_iff] at hrun
    have hsame : List.Forall₂ (· = ·) words ((code.drop before.length).take words.length) :=
      hrun.imp fun _ _ h => h.symm
    rw [List.forall₂_eq_eq_eq] at hsame
    exact hsame.symm
  · intro b hb
    have hkeys : b.pool.Pairwise fun p q => p.1 ≠ q.1 := by
      have hnodup := b.literals_nodup
      rw [← map_fst_placeWords (b.origin + b.statementCells.length) b.literals] at hnodup
      exact List.pairwise_map.mp hnodup
    exact hkeys.and (pairwise_placeWords _ _)

end Assembly

section assemble

variable {source : String} {options : AssemblyOptions}

theorem undefinedLabels_eq_nil (h : (assemble source options).diagnostics = []) :
    ∀ b ∈ (layoutOf source options).blocks,
      b.undefinedLabels (layoutOf source options).globals = [] := by
  have hlink : (layoutOf source options).link.diagnostics = [] := h
  exact List.flatMap_eq_nil_iff.mp (Assembly.Layout.link_diagnostics_eq_nil_iff.mp hlink).2

/-- A source in whose lines nothing is wrong has a listing, and is laid out as it is listed. -/
theorem listing_of_layoutOf (hnone : (layoutOf source options).diagnostics = #[]) :
    ∃ blocks, listing source options = some blocks ∧
      (layoutOf source options).Realizes options blocks none ∧ Assembly.BlocksFrom 0 blocks := by
  obtain ⟨heq, hopened, -⟩ := Assembly.Layout.ofLines_eq_addLines hnone
  rw [layoutOf] at hnone ⊢
  rw [heq] at hnone hopened ⊢
  obtain ⟨blocks, hlisted, hrealizes⟩ :=
    (Assembly.Layout.realizes_empty options).addLines hnone hopened
  exact ⟨blocks, hlisted, hrealizes, Assembly.blocksFrom_of_listFrom hlisted nofun⟩

theorem listing_of_assemble (h : (assemble source options).diagnostics = []) :
    ∃ blocks, listing source options = some blocks ∧
      (layoutOf source options).Realizes options blocks none ∧ Assembly.BlocksFrom 0 blocks :=
  listing_of_layoutOf (assemble_eq_program h).1

theorem Assembly.Layout.Realizes.image_of_assemble {blocks : List Assembly.ListingBlock}
    (h : (assemble source options).diagnostics = [])
    (hrealizes : (layoutOf source options).Realizes options blocks none)
    (hfrom : Assembly.BlocksFrom 0 blocks) :
    Assembly.Image options blocks (layoutOf source options).program.code :=
  .of_words hfrom
    (hrealizes.forall₂_image hfrom (layoutOf_code_length_le h) (undefinedLabels_eq_nil h))

/-- The assembled code is the image of the listing: the words of the statements in their order and
behind each block its literals, with every label and every literal at its place. -/
theorem assembled_code_is_listed_image (h : (assemble source options).diagnostics = []) :
    ∃ p blocks, (assemble source options).program = some p ∧
      listing source options = some blocks ∧ Assembly.Image options blocks p.code := by
  obtain ⟨-, hassemble⟩ := assemble_eq_program h
  obtain ⟨blocks, hlisted, hrealizes, hfrom⟩ := listing_of_assemble h
  exact ⟨_, blocks, by rw [hassemble], hlisted, hrealizes.image_of_assemble h hfrom⟩

end assemble

/-- A source of two blocks. `SUB` is used before it is defined, and `MAIN` is a label of it. -/
def twoBlockSource : String :=
  "MAIN START\n LD GR1,=5\n LD GR2,='AB'\n ADDA GR1,=5\n CALL SUB\n JUMP OUT\nOUT RET\n END\n" ++
    "SUB START LOOP\nMAIN DC 7\nLOOP LAD GR1,MAIN\n RET\n END\n"

theorem two_block_code_is_listed_image : ∃ p blocks,
    (assemble twoBlockSource {}).program = some p ∧ listing twoBlockSource {} = some blocks ∧
      Assembly.Image {} blocks p.code ∧
      p.code = [4112, 11, 4128, 12, 8208, 11, 32768, 15, 25600, 10, 33024, 5, 65, 66, 7, 4624, 14,
        33024] := by
  have hnone : (assemble twoBlockSource {}).diagnostics = [] := by decide +kernel
  obtain ⟨p, blocks, hp, hlisted, himage⟩ := assembled_code_is_listed_image hnone
  have hcode : (assemble twoBlockSource {}).program.map (·.code) = some [4112, 11, 4128, 12, 8208,
      11, 32768, 15, 25600, 10, 33024, 5, 65, 66, 7, 4624, 14, 33024] := by decide +kernel
  rw [hp] at hcode
  exact ⟨p, blocks, hp, hlisted, himage, Option.some.inj hcode⟩

end Comet
