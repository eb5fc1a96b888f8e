import Comet.Proofs.Assembly.WellFormed

namespace Comet.Assembly

namespace Pass

variable {α β : Type} {s s' : Layout}

/-- The step is accepted with an answer, and leaves this layout behind. -/
def Accepts (x : Pass α) (s : Layout) (a : α) (s' : Layout) : Prop := x.run s = .ok a s'

@[simp] theorem accepts_pure (a b : α) : Accepts (pure a) s b s' ↔ b = a ∧ s' = s := by
  constructor
  · rintro ⟨⟩
    exact ⟨rfl, rfl⟩
  · rintro ⟨rfl, rfl⟩
    rfl

@[simp] theorem accepts_throw (e : SourceError) (a : α) : ¬ Accepts (throw e) s a s' :=
  nofun

@[simp] theorem accepts_bind (x : Pass α) (f : α → Pass β) (b : β) :
    Accepts (x >>= f) s b s' ↔ ∃ a t, Accepts x s a t ∧ Accepts (f a) t b s' := by
  unfold Accepts
  rw [EStateM.run_bind]
  cases x.run s with
  | ok a t => simp [and_assoc]
  | error e t => simp

@[simp] theorem accepts_map (x : Pass α) (g : α → β) (b : β) :
    Accepts (g <$> x) s b s' ↔ ∃ a, Accepts x s a s' ∧ b = g a := by
  rw [map_eq_pure_bind, accepts_bind]
  simp

@[simp] theorem accepts_get (a : Layout) : Accepts get s a s' ↔ a = s ∧ s' = s :=
  accepts_pure s a

theorem accepts_get_bind (f : Layout → Pass β) (b : β) :
    Accepts (get >>= f) s b s' ↔ Accepts (f s) s b s' := by
  simp [and_assoc]

@[simp] theorem accepts_set (t : Layout) (u : PUnit) : Accepts (set t) s u s' ↔ s' = t := by
  constructor
  · rintro ⟨⟩
    rfl
  · rintro rfl
    rfl

@[simp] theorem accepts_modify (f : Layout → Layout) (u : PUnit) :
    Accepts (modify f) s u s' ↔ s' = f s :=
  accepts_set (s := s) (f s) u

@[simp] theorem accepts_ofExcept (r : Except SourceError α) (a : α) :
    Accepts (ofExcept r) s a s' ↔ r = .ok a ∧ s' = s := by
  cases r with
  | ok b => simp [ofExcept, eq_comm]
  | error e => simp [ofExcept]

@[simp] theorem accepts_modifyBlock (f : Block → Block) (u : Unit) :
    Accepts (modifyBlock f) s u s' ↔ s' = { s with opened := s.opened.map f } :=
  accepts_modify _ u

/-- There is an address for the next word as long as memory is not full. -/
@[simp] theorem accepts_here (w : Word) :
    Accepts here s w s' ↔ s.location < memorySize ∧ w = .ofNat s.location ∧ s' = s := by
  by_cases h : s.location < memorySize <;> simp [here, h, and_assoc]

@[simp] theorem accepts_reserve (size : Nat) (w : Word) :
    Accepts (reserve size) s w s' ↔
      s.location < memorySize ∧ s.location + size ≤ memorySize ∧ w = .ofNat s.location ∧
        s' = { s with location := s.location + size } := by
  by_cases h : memorySize < s.location + size
  · have hfull : ¬ s.location + size ≤ memorySize := by omega
    simp [reserve, h, hfull, and_assoc]
  · have hfits : s.location + size ≤ memorySize := by omega
    simp [reserve, h, hfits, and_assoc, and_comm]

end Pass

/-- Where something lies in memory: its address and its number of words. -/
abbrev Extent := Word × Nat

def Piece.extent (piece : Piece) : Extent := (piece.address, piece.cells.length)

def literalExtent (literal : List Word × Word) : Extent := (literal.2, literal.1.length)

/-- What lies there fills memory without a gap, from one location to another. -/
inductive Tiles : Nat → List Extent → Nat → Prop
  | nil (location : Nat) : Tiles location [] location
  | cons {location last size : Nat} {extents : List Extent} (hfree : location < memorySize)
      (hfits : location + size ≤ memorySize) (hrest : Tiles (location + size) extents last) :
      Tiles location ((.ofNat location, size) :: extents) last

theorem Tiles.append {l m n : Nat} {xs ys : List Extent} (hx : Tiles l xs m) (hy : Tiles m ys n) :
    Tiles l (xs ++ ys) n := by
  induction hx with
  | nil => exact hy
  | cons hfree hfits _ ih => exact .cons hfree hfits (ih hy)

/-- The number of words of extents altogether. -/
def extentsSize : List Extent → Nat
  | [] => 0
  | (_, size) :: rest => size + extentsSize rest

@[simp] theorem extentsSize_append (xs ys : List Extent) :
    extentsSize (xs ++ ys) = extentsSize xs + extentsSize ys := by
  induction xs with
  | nil => simp [extentsSize]
  | cons e xs ih =>
    simp only [List.cons_append, extentsSize, ih]
    omega

theorem Tiles.last_eq {l n : Nat} {xs : List Extent} (h : Tiles l xs n) :
    n = l + extentsSize xs := by
  induction h with
  | nil => rfl
  | cons _ _ _ ih =>
    rw [ih, extentsSize]
    omega

theorem Tiles.last_le {l n : Nat} {xs : List Extent} (h : Tiles l xs n) (hl : l ≤ memorySize) :
    n ≤ memorySize := by
  induction h with
  | nil => exact hl
  | cons _ hfits _ ih => exact ih hfits

theorem Tiles.split {l n : Nat} {xs ys : List Extent} (h : Tiles l (xs ++ ys) n) :
    ∃ m, Tiles l xs m ∧ Tiles m ys n := by
  induction xs generalizing l with
  | nil => exact ⟨l, .nil l, h⟩
  | cons x xs ih =>
    cases h with
    | cons hfree hfits hrest =>
      obtain ⟨m, hx, hy⟩ := ih hrest
      exact ⟨m, .cons hfree hfits hx, hy⟩

theorem Tiles.uncons {l n size : Nat} {a : Word} {xs : List Extent}
    (h : Tiles l ((a, size) :: xs) n) :
    a.toNat = l ∧ Tiles (l + size) xs n ∧ l + size ≤ n := by
  cases h with
  | cons hfree hfits hrest =>
    have hlast := hrest.last_eq
    exact ⟨UInt16.toNat_ofNat_of_lt' hfree, hrest, by omega⟩

/-- What fills memory without a gap has ascending addresses, but for what has no words. -/
theorem Tiles.ascending {l n : Nat} {xs : List Extent} (h : Tiles l xs n) :
    (∀ e ∈ xs, l ≤ e.1.toNat) ∧ (xs.filter (0 < ·.2)).Pairwise fun e f => e.1 < f.1 := by
  induction h with
  | nil => exact ⟨nofun, .nil⟩
  | @cons location last size extents hfree hfits hrest ih =>
    obtain ⟨hbehind, hpairs⟩ := ih
    have haddress : (UInt16.ofNat location).toNat = location := UInt16.toNat_ofNat_of_lt' hfree
    refine ⟨?_, ?_⟩
    · intro e he
      rcases List.mem_cons.mp he with rfl | he
      · exact Nat.le_of_eq haddress.symm
      · exact Nat.le_trans (Nat.le_add_right _ _) (hbehind e he)
    · by_cases hsize : 0 < size
      · simp only [List.filter_cons, hsize, decide_true, if_true]
        refine .cons ?_ hpairs
        intro e he
        have hlater := hbehind e (List.mem_filter.mp he).1
        show (UInt16.ofNat location) < e.1
        rw [UInt16.lt_iff_toNat_lt, haddress]
        omega
      · simpa only [List.filter_cons, hsize, decide_false, Bool.false_eq_true, if_false]
          using hpairs

def instructionPieces (line : Nat) : Nat → List SymbolicInstruction → List Piece
  | _, [] => []
  | location, i :: rest =>
    ⟨.ofNat location, line, i.cells, true⟩ ::
      instructionPieces line (location + i.cells.length) rest

/-- Data statements are put into memory in one piece, and instructions each in one of its own. -/
def Content.pieces (line location : Nat) : Content → List Piece
  | .data cells => [⟨.ofNat location, line, cells, false⟩]
  | .code instructions => instructionPieces line location instructions

theorem Content.line_of_mem_pieces {line location : Nat} (content : Content) {piece : Piece}
    (h : piece ∈ content.pieces line location) : piece.line = line := by
  cases content with
  | data cells =>
    obtain rfl := List.mem_singleton.mp h
    rfl
  | code instructions =>
    unfold pieces at h
    induction instructions generalizing location with
    | nil => cases h
    | cons i rest ih =>
      rcases List.mem_cons.mp h with rfl | h
      · rfl
      · exact ih h

/-- The literals of a block where they have been put. -/
def placePool (location : Nat) (literals : List (List Word)) : List (List Word × Word) :=
  (placeWords location literals).map fun run => (run.1, .ofNat run.2)

/-- The block with the literals that the cells refer to. -/
def Block.note (b : Block) (cells : List Cell) : Block :=
  (cells.filterMap Cell.literal?).foldl Block.addLiteral b

def Layout.note (s : Layout) (cells : List Cell) : Layout :=
  { s with opened := s.opened.map (·.note cells) }

/-- The layout with more pieces in the open block, from its location to another. -/
def Layout.put (s : Layout) (pieces : List Piece) (location : Nat) : Layout :=
  { s with
    opened := s.opened.map fun b => { b with pieces := b.pieces ++ pieces.toArray }
    location }

section note

variable {b : Block} {s : Layout} {xs ys : List Cell}

@[simp] theorem Block.note_nil (b : Block) : b.note [] = b := rfl

theorem Block.note_append (b : Block) (xs ys : List Cell) :
    b.note (xs ++ ys) = (b.note xs).note ys := by
  rw [note, note, note, List.filterMap_append, List.foldl_append]

@[simp] theorem Block.note_value (b : Block) (w : Word) (cells : List Cell) :
    b.note (.value w :: cells) = b.note cells := rfl

theorem Block.note_of_no_literal (h : ∀ c ∈ xs, c.literal? = none) : b.note xs = b := by
  rw [note, List.filterMap_eq_nil_iff.mpr h, List.foldl_nil]

/-- Only the list of the literals changes. -/
theorem Block.note_eq (b : Block) (cells : List Cell) :
    b.note cells = { b with literals := (b.note cells).literals } := by
  have hadd (b : Block) (words : List Word) :
      b.addLiteral words = { b with literals := (b.addLiteral words).literals } := by
    unfold addLiteral
    split <;> rfl
  have hfold (literals : List (List Word)) (b : Block) :
      literals.foldl addLiteral b =
        { b with literals := (literals.foldl addLiteral b).literals } := by
    induction literals generalizing b with
    | nil => rfl
    | cons words rest ih =>
      rw [List.foldl_cons, ih, hadd]
  exact hfold _ b

/-- Which literals are pooled depends on no other part of the block. -/
theorem Block.note_literals_congr {b c : Block} (h : b.literals = c.literals) (cells : List Cell) :
    (b.note cells).literals = (c.note cells).literals := by
  unfold note
  induction cells.filterMap Cell.literal? generalizing b c with
  | nil => exact h
  | cons words rest ih =>
    refine ih ?_
    rw [addLiteral, addLiteral, h]
    split
    · exact h
    · rfl

theorem Layout.note_note (s : Layout) (xs ys : List Cell) :
    (s.note xs).note ys = s.note (xs ++ ys) := by
  simp [note, Block.note_append, Function.comp_def]

theorem Layout.note_of_no_literal (h : ∀ c ∈ xs, c.literal? = none) : s.note xs = s := by
  simp [note, Block.note_of_no_literal h]

theorem Layout.note_of_bare (m : Mnemonic) (r x : RegisterField) (s : Layout) :
    s.note (⟨m, r, x, none⟩ : SymbolicInstruction).cells = s :=
  note_of_no_literal (by simp [SymbolicInstruction.cells, Cell.literal?])

theorem Layout.put_put (s : Layout) (ps qs : List Piece) (m n : Nat) :
    (s.put ps m).put qs n = s.put (ps ++ qs) n := by
  simp [put, Function.comp_def]

end note

namespace Pass

open SymbolicInstruction

variable {options : AssemblyOptions} {line : Nat} {s s' : Layout}

theorem accepts_emit {isInstruction : Bool} {cells : List Cell} {u : Unit}
    (h : Accepts (emit line isInstruction cells) s u s') :
    s.location < memorySize ∧ s.location + cells.length ≤ memorySize ∧
      s' = s.put [⟨.ofNat s.location, line, cells, isInstruction⟩] (s.location + cells.length) := by
  simp only [emit, accepts_bind, accepts_reserve, accepts_modifyBlock] at h
  obtain ⟨address, t, ⟨hfree, hfits, rfl, rfl⟩, rfl⟩ := h
  exact ⟨hfree, hfits, by simp [Layout.put, Block.addPiece]⟩

theorem accepts_emitAll {is : List SymbolicInstruction} {u : PUnit}
    (h : Accepts (is.forM fun i => emit line true i.cells) s u s') :
    Tiles s.location ((instructionPieces line s.location is).map Piece.extent)
        (s.location + (is.flatMap (·.cells)).length) ∧
      s' = s.put (instructionPieces line s.location is)
        (s.location + (is.flatMap (·.cells)).length) := by
  induction is generalizing s with
  | nil =>
    obtain ⟨-, rfl⟩ := (accepts_pure _ _).mp h
    exact ⟨.nil _, by simp [Layout.put, instructionPieces]⟩
  | cons i rest ih =>
    obtain ⟨_, t, hi, hrest⟩ := (accepts_bind _ _ _).mp h
    obtain ⟨hfree, hfits, rfl⟩ := accepts_emit hi
    obtain ⟨htiles, rfl⟩ := ih hrest
    have hlast : s.location + i.cells.length + (rest.flatMap (·.cells)).length =
        s.location + ((i :: rest).flatMap (·.cells)).length := by
      simp only [List.flatMap_cons, List.length_append]
      omega
    rw [← hlast]
    exact ⟨.cons hfree hfits htiles, Layout.put_put _ _ _ _ _⟩

theorem accepts_address {text : String} {cell : Cell} (h : Accepts (address text) s cell s') :
    addressOperand text.toList = .ok cell ∧ s' = s.note [cell] := by
  simp only [address, accepts_bind, accepts_ofExcept] at h
  obtain ⟨c, t, ⟨hcell, rfl⟩, h⟩ := h
  cases c with
  | literal words =>
    simp only [accepts_bind, accepts_modifyBlock, accepts_pure] at h
    obtain ⟨-, t, rfl, rfl, rfl⟩ := h
    exact ⟨hcell, rfl⟩
  | value | label =>
    obtain ⟨rfl, rfl⟩ := (accepts_pure _ _).mp h
    exact ⟨hcell, (Layout.note_of_no_literal (by simp [Cell.literal?])).symm⟩

theorem accepts_addressForm {m : Mnemonic} {r : RegisterField} {adr : String}
    {index : Option String} {cells : List Cell}
    (h : Accepts (addressForm options m r adr index) s cells s') :
    ∃ x cell, index? options index = some x ∧ addressOperand adr.toList = .ok cell ∧
      cells = (⟨m, r, x, some cell⟩ : SymbolicInstruction).cells ∧ s' = s.note cells := by
  simp only [addressForm, accepts_bind, accepts_ofExcept, accepts_pure] at h
  obtain ⟨x, t, ⟨hx, rfl⟩, cell, t', hadr, rfl, rfl⟩ := h
  obtain ⟨hcell, rfl⟩ := accepts_address hadr
  exact ⟨x, cell, index?_eq_some_iff.mpr hx, hcell, rfl, rfl⟩

theorem accepts_registerAddressForm {m : Mnemonic} {text adr : String} {index : Option String}
    {cells : List Cell} (h : Accepts (registerAddressForm options m text adr index) s cells s') :
    ∃ r x cell, register? options text = some r ∧ index? options index = some x ∧
      addressOperand adr.toList = .ok cell ∧
      cells = (⟨m, r, x, some cell⟩ : SymbolicInstruction).cells ∧ s' = s.note cells := by
  simp only [registerAddressForm, accepts_bind, accepts_ofExcept] at h
  obtain ⟨r, t, ⟨hr, rfl⟩, h⟩ := h
  obtain ⟨x, cell, hx, hadr, hcells, hs⟩ := accepts_addressForm h
  exact ⟨r, x, cell, register?_eq_some_iff.mpr hr, hx, hadr, hcells, hs⟩

theorem accepts_registerForm {m : Mnemonic} {text₁ text₂ : String} {cells : List Cell}
    (h : Accepts (registerForm options m text₁ text₂) s cells s') :
    ∃ r x, register? options text₁ = some r ∧ register? options text₂ = some x ∧
      cells = (⟨m, r, x, none⟩ : SymbolicInstruction).cells ∧ s' = s := by
  unfold registerForm at h
  cases hopcode : m.registerOpcode with
  | none => simp [hopcode] at h
  | some opcode =>
    simp only [hopcode, accepts_bind, accepts_ofExcept, accepts_pure] at h
    obtain ⟨r, t, ⟨hr, rfl⟩, x, t', ⟨hx, rfl⟩, rfl, rfl⟩ := h
    refine ⟨r, x, register?_eq_some_iff.mpr hr, register?_eq_some_iff.mpr hx, ?_, rfl⟩
    simp [SymbolicInstruction.cells, SymbolicInstruction.opcode, hopcode]

/-- An instruction with no address is put into memory as one word. -/
theorem cells_of_bare {m : Mnemonic} (hm : m.form.hasAddress = false) (r : RegisterField) :
    (⟨m, r, 0, none⟩ : SymbolicInstruction).cells = [registerWord m r 0] := by
  simp [SymbolicInstruction.cells, SymbolicInstruction.opcode,
    Mnemonic.registerOpcode_eq_none hm, registerWord]

/-- A machine instruction is what its operands are read as, and only literals are noted on the
way. -/
theorem accepts_instruction {m : Mnemonic} {operands : List String} {cells : List Cell}
    (h : Accepts (instruction options m operands) s cells s') :
    ∃ i, Reads options m operands i ∧ cells = i.cells ∧ s' = s.note i.cells := by
  cases hform : m.form with
  | empty =>
    match operands with
    | [] =>
      simp only [instruction, hform, accepts_pure] at h
      obtain ⟨rfl, rfl⟩ := h
      exact ⟨_, .empty hform, (cells_of_bare (by rw [hform]; rfl) 0).symm,
        (Layout.note_of_bare m 0 0 s').symm⟩
    | _ :: _ => simp [instruction, hform] at h
  | register =>
    match operands with
    | [text] =>
      simp only [instruction, hform, accepts_bind, accepts_ofExcept, accepts_pure] at h
      obtain ⟨r, t, ⟨hr, rfl⟩, rfl, rfl⟩ := h
      exact ⟨_, .register hform (register?_eq_some_iff.mpr hr),
        (cells_of_bare (by rw [hform]; rfl) r).symm, (Layout.note_of_bare m r 0 s').symm⟩
    | [] | _ :: _ :: _ => simp [instruction, hform] at h
  | registerAddress =>
    match operands with
    | [text, adr] =>
      simp only [instruction, hform] at h
      obtain ⟨r, x, cell, hr, hx, hadr, rfl, hs⟩ := accepts_registerAddressForm h
      exact ⟨_, .registerAddress none hform hr hadr hx, rfl, hs⟩
    | [text, adr, index] =>
      simp only [instruction, hform] at h
      obtain ⟨r, x, cell, hr, hx, hadr, rfl, hs⟩ := accepts_registerAddressForm h
      exact ⟨_, .registerAddress (some index) hform hr hadr hx, rfl, hs⟩
    | [] | [_] | _ :: _ :: _ :: _ :: _ => simp [instruction, hform] at h
  | registerAddressOrRegister =>
    match operands with
    | [text, second] =>
      simp only [instruction, hform] at h
      by_cases hlike : looksLikeRegister second.toList = true
      · rw [if_pos hlike] at h
        obtain ⟨r, x, hr, hx, rfl, rfl⟩ := accepts_registerForm h
        exact ⟨_, .registers hform hlike hr hx, rfl, (Layout.note_of_bare m r x s').symm⟩
      · rw [if_neg hlike] at h
        obtain ⟨r, x, cell, hr, hx, hadr, rfl, hs⟩ := accepts_registerAddressForm h
        exact ⟨_, .registerOrAddress none hform (fun _ => Bool.eq_false_iff.mpr hlike) hr hadr hx,
          rfl, hs⟩
    | [text, adr, index] =>
      simp only [instruction, hform] at h
      obtain ⟨r, x, cell, hr, hx, hadr, rfl, hs⟩ := accepts_registerAddressForm h
      exact ⟨_, .registerOrAddress (some index) hform nofun hr hadr hx, rfl, hs⟩
    | [] | [_] | _ :: _ :: _ :: _ :: _ => simp [instruction, hform] at h
  | address =>
    match operands with
    | [adr] =>
      simp only [instruction, hform] at h
      obtain ⟨x, cell, hx, hadr, rfl, hs⟩ := accepts_addressForm h
      exact ⟨_, .address none hform hadr hx, rfl, hs⟩
    | [adr, index] =>
      simp only [instruction, hform] at h
      obtain ⟨x, cell, hx, hadr, rfl, hs⟩ := accepts_addressForm h
      exact ⟨_, .address (some index) hform hadr hx, rfl, hs⟩
    | [] | _ :: _ :: _ :: _ => simp [instruction, hform] at h

theorem accepts_emitData {cells : List Cell} {u : Unit} (hplain : ∀ c ∈ cells, c.literal? = none)
    (h : Accepts (emit line false cells) s u s') :
    Tiles s.location (((Content.data cells).pieces line s.location).map Piece.extent)
        (s.location + cells.length) ∧
      s' = (s.note cells).put ((Content.data cells).pieces line s.location)
        (s.location + cells.length) := by
  obtain ⟨hfree, hfits, rfl⟩ := accepts_emit h
  rw [Layout.note_of_no_literal hplain]
  exact ⟨.cons hfree hfits (.nil _), rfl⟩

theorem accepts_emitCode {is : List SymbolicInstruction} {u : PUnit}
    (h : Accepts (is.forM fun i => emit line true i.cells) (s.note (is.flatMap (·.cells))) u s') :
    Tiles s.location (((Content.code is).pieces line s.location).map Piece.extent)
        (s.location + (Content.code is).cells.length) ∧
      s' = (s.note (Content.code is).cells).put ((Content.code is).pieces line s.location)
        (s.location + (Content.code is).cells.length) :=
  accepts_emitAll h

theorem accepts_emitPlainCode {is : List SymbolicInstruction} {u : PUnit}
    (hplain : ∀ c ∈ (Content.code is).cells, c.literal? = none)
    (h : Accepts (is.forM fun i => emit line true i.cells) s u s') :
    Tiles s.location (((Content.code is).pieces line s.location).map Piece.extent)
        (s.location + (Content.code is).cells.length) ∧
      s' = (s.note (Content.code is).cells).put ((Content.code is).pieces line s.location)
        (s.location + (Content.code is).cells.length) := by
  rw [Layout.note_of_no_literal hplain]
  exact accepts_emitAll h

/-- A statement puts into memory what the listing says of it. -/
theorem accepts_operation {name : String} {operands : List String} {u : Unit}
    (h : Accepts (operation options line name operands) s u s') :
    ∃ content, Content.read? options name operands = some content ∧
      Tiles s.location ((content.pieces line s.location).map Piece.extent)
        (s.location + content.cells.length) ∧
      s' = (s.note content.cells).put (content.pieces line s.location)
        (s.location + content.cells.length) := by
  unfold operation at h
  cases hname : Operation.ofName? name with
  | none => simp [hname] at h
  | some found =>
    simp only [hname] at h
    have hread {content : Content} (hreads : Content.Reads options found operands content) :
        Content.read? options name operands = some content :=
      Content.read?_eq_some_iff.mpr ⟨found, hname, hreads⟩
    cases found with
    | space =>
      cases operands with
      | nil => simp at h
      | cons text rest =>
        cases rest with
        | cons => simp at h
        | nil =>
          simp only at h
          cases hsize : Text.unsigned? 10 0x10000 text.toList with
          | none => simp [hsize] at h
          | some size =>
            simp only [hsize] at h
            refine ⟨_, hread (.space hsize), accepts_emitData ?_ h⟩
            simp [Cell.literal?]
    | constants =>
      cases operands with
      | nil => simp at h
      | cons text rest =>
        obtain ⟨cells, t, haccepts, hemit⟩ := (accepts_bind _ _ _).mp h
        obtain ⟨hcells, rfl⟩ := (accepts_ofExcept _ _).mp haccepts
        exact ⟨_, hread (.constants (List.cons_ne_nil _ _) hcells),
          accepts_emitData (literal?_of_constants hcells) hemit⟩
    | transfer service =>
      have htwo : ∃ buffer length, operands = [buffer, length] := by
        rcases operands with _ | ⟨buffer, _ | ⟨length, _ | ⟨third, rest⟩⟩⟩
        · simp at h
        · simp at h
        · exact ⟨buffer, length, rfl⟩
        · simp at h
      obtain ⟨buffer, length, rfl⟩ := htwo
      simp only [accepts_bind] at h
      obtain ⟨b, t, hb, l, t', hl, hemit⟩ := h
      obtain ⟨hbuffer, rfl⟩ := accepts_address hb
      obtain ⟨hlength, rfl⟩ := accepts_address hl
      refine ⟨_, hread (.transfer hbuffer hlength), accepts_emitCode (u := u) ?_⟩
      rw [Layout.note_note] at hemit
      exact hemit
    | save =>
      cases operands with
      | nil =>
        refine ⟨_, hread .save, accepts_emitPlainCode (u := u) ?_ h⟩
        simp [Content.cells, savedRegisters, SymbolicInstruction.save, SymbolicInstruction.cells,
          Cell.literal?]
      | cons => simp at h
    | restore =>
      cases operands with
      | nil =>
        refine ⟨_, hread .restore, accepts_emitPlainCode (u := u) ?_ h⟩
        simp [Content.cells, savedRegisters, SymbolicInstruction.restore,
          SymbolicInstruction.cells, Cell.literal?]
      | cons => simp at h
    | machine m =>
      obtain ⟨cells, t, hinstruction, hemit⟩ := (accepts_bind _ _ _).mp h
      obtain ⟨i, hi, rfl, rfl⟩ := accepts_instruction hinstruction
      refine ⟨_, hread (.machine hi), accepts_emitCode (u := ⟨⟩) ?_⟩
      simp only [List.flatMap_cons, List.flatMap_nil, List.append_nil]
      exact (accepts_bind _ _ _).mpr ⟨_, _, hemit, rfl⟩

theorem accepts_placeLiterals {literals : List (List Word)} {pool : List (List Word × Word)}
    (h : Accepts (placeLiterals literals) s pool s') :
    pool = placePool s.location literals ∧
      Tiles s.location (pool.map literalExtent) (s.location + literals.flatten.length) ∧
      s' = { s with location := s.location + literals.flatten.length } := by
  induction literals generalizing pool s with
  | nil =>
    obtain ⟨rfl, rfl⟩ := (accepts_pure _ _).mp h
    exact ⟨rfl, .nil _, rfl⟩
  | cons words rest ih =>
    simp only [placeLiterals, accepts_bind, accepts_reserve, accepts_pure] at h
    obtain ⟨address, t, ⟨hfree, hfits, rfl, rfl⟩, pool', t', hrest, rfl, rfl⟩ := h
    obtain ⟨hpool, htiles, hs⟩ := ih hrest
    have hlast : s.location + words.length + rest.flatten.length =
        s.location + (words :: rest).flatten.length := by
      simp only [List.flatten_cons, List.length_append]
      omega
    rw [← hlast]
    exact ⟨by rw [hpool]; rfl, .cons hfree hfits htiles, hs⟩

end Pass

end Comet.Assembly
