import Comet.Assembly.Link
import Comet.Proofs.Assembly.Taken

namespace Comet.Assembly

/-- What the block has put into memory so far, in the order of the addresses. -/
def Block.extents (b : Block) : List Extent := b.pieces.toList.map Piece.extent

/-- What the block has put into memory, its literals last. -/
def ClosedBlock.extents (b : ClosedBlock) : List Extent :=
  b.toBlock.extents ++ b.pool.map literalExtent

/-- The block starts before the line, and its pieces are from lines between. -/
structure Block.Within (b : Block) (line : Nat) : Prop where
  start : b.startLine < line
  pieces : ∀ piece ∈ b.pieces.toList, b.startLine < piece.line ∧ piece.line < line

/-- The block ends before the line, on a line of its own. -/
def Block.EndsBefore (b : Block) (line : Nat) : Prop := ∃ last < line, b.Within last

/-- What holds of the layout of lines in which nothing is wrong, where `n` is their number. -/
structure Layout.Sound (n : Nat) (s : Layout) : Prop where
  tiles : Tiles 0 (s.blocks.flatMap (·.extents) ++ s.opened.elim [] (·.extents)) s.location
  ended : ∀ b ∈ s.blocks, b.toBlock.EndsBefore n
  ordered : s.blocks.Pairwise fun b c => b.toBlock.EndsBefore c.startLine
  opened : ∀ b, s.opened = some b →
    b.Within n ∧ ∀ c ∈ s.blocks, c.toBlock.EndsBefore b.startLine
  started : s.started = true → s.opened = none → s.blocks ≠ []

section within

variable {b : Block} {m n : Nat}

theorem Block.Within.mono (h : b.Within m) (hle : m ≤ n) : b.Within n := by
  refine ⟨Nat.lt_of_lt_of_le h.start hle, fun piece hpiece => ?_⟩
  obtain ⟨hstart, hbefore⟩ := h.pieces piece hpiece
  exact ⟨hstart, Nat.lt_of_lt_of_le hbefore hle⟩

theorem Block.EndsBefore.mono (h : b.EndsBefore m) (hle : m ≤ n) : b.EndsBefore n := by
  obtain ⟨last, hlast, hwithin⟩ := h
  exact ⟨last, Nat.lt_of_lt_of_le hlast hle, hwithin⟩

/-- Between the START line of a block and a line behind its end there is at least its END. -/
theorem Block.EndsBefore.start_succ_lt (h : b.EndsBefore n) : b.startLine + 1 < n := by
  obtain ⟨last, hlast, hwithin⟩ := h
  have hstart := hwithin.start
  omega

theorem Block.EndsBefore.piece_lt (h : b.EndsBefore n) {piece : Piece}
    (hpiece : piece ∈ b.pieces.toList) : piece.line < n := by
  obtain ⟨last, hlast, hwithin⟩ := h
  exact Nat.lt_trans (hwithin.pieces piece hpiece).2 hlast

theorem Block.EndsBefore.lt_piece (h : b.EndsBefore n) {piece : Piece}
    (hpiece : piece ∈ b.pieces.toList) : b.startLine < piece.line := by
  obtain ⟨last, -, hwithin⟩ := h
  exact (hwithin.pieces piece hpiece).1

theorem Block.grow_within {location : Nat} {content : Content} (hb : b.Within n) :
    (b.grow n location content).Within (n + 1) := by
  have hline : ∀ piece ∈ content.pieces n location, piece.line = n :=
    fun piece hpiece => content.line_of_mem_pieces hpiece
  rw [Block.grow_eq]
  refine ⟨Nat.lt_succ_of_lt hb.start, fun piece hpiece => ?_⟩
  rw [Array.toList_append, List.mem_append] at hpiece
  show b.startLine < piece.line ∧ piece.line < n + 1
  rcases hpiece with hold | hnew
  · have hbetween := hb.pieces piece hold
    omega
  · have hstart := hb.start
    rw [hline piece hnew]
    omega

end within

namespace Layout

variable {n : Nat} {s t : Layout} {options : AssemblyOptions}

theorem sound_empty : Sound 0 {} :=
  ⟨.nil 0, by simp [blocks], by simp [blocks], by simp, by simp⟩

/-- Accepting one more line keeps the layout sound. -/
theorem Takes.sound {row : Option Row} (h : s.Takes options n row t) (hs : s.Sound n) :
    t.Sound (n + 1) := by
  have hended : ∀ b ∈ s.blocks, b.toBlock.EndsBefore (n + 1) :=
    fun b hb => (hs.ended b hb).mono (Nat.le_succ n)
  cases h with
  | blank =>
    refine ⟨hs.tiles, hended, hs.ordered, fun b hb => ?_, hs.started⟩
    exact ⟨(hs.opened b hb).1.mono (Nat.le_succ n), (hs.opened b hb).2⟩
  | start name entryLabel hopened hfree =>
    have htiles := hs.tiles
    rw [hopened] at htiles
    refine ⟨htiles, hended, hs.ordered, ?_, nofun⟩
    rintro b ⟨⟩
    exact ⟨⟨Nat.lt_succ_self n, by simp⟩, hs.ended⟩
  | finish b entry globals hopened _ _ htiles =>
    obtain ⟨hwithin, hbefore⟩ := hs.opened b hopened
    have hblocks : blocks { s with
          globals
          opened := none
          closed := s.closed.push { b with entry, pool := placePool s.location b.literals }
          location := s.location + b.literals.flatten.length } =
        s.blocks ++ [{ b with entry, pool := placePool s.location b.literals }] := by
      simp [blocks]
    refine ⟨?_, ?_, ?_, nofun, ?_⟩
    · have hall := hs.tiles.append htiles
      rw [hopened] at hall
      rw [hblocks]
      simpa [ClosedBlock.extents] using hall
    · rw [hblocks]
      intro c hc
      rcases List.mem_append.mp hc with hc | hc
      · exact hended c hc
      · obtain rfl := List.mem_singleton.mp hc
        exact ⟨n, Nat.lt_succ_self n, hwithin⟩
    · rw [hblocks]
      refine List.pairwise_append.mpr ⟨hs.ordered, List.pairwise_singleton _ _, ?_⟩
      intro c hc d hd
      obtain rfl := List.mem_singleton.mp hd
      exact hbefore c hc
    · rw [hblocks]
      simp
  | body b label content labels globals hopened _ htiles =>
    obtain ⟨hwithin, hbefore⟩ := hs.opened b hopened
    have hlabelled : Block.Within { b with labels } n := ⟨hwithin.start, hwithin.pieces⟩
    refine ⟨?_, hended, hs.ordered, ?_, nofun⟩
    · have hall := hs.tiles.append htiles
      rw [hopened] at hall
      simpa [Block.extents, Block.grow_eq, blocks] using hall
    · intro c hc
      obtain rfl := Option.some.inj hc
      refine ⟨Block.grow_within hlabelled, ?_⟩
      rw [Block.grow_eq]
      exact hbefore

theorem Takes.diagnostics {row : Option Row} (h : s.Takes options n row t) :
    t.diagnostics = s.diagnostics := by
  cases h with
  | blank | start | body | finish => rfl

/-- A line at which nothing is wrong is read as a row and taken. -/
theorem takes_of_addLine {text : List Char}
    (h : (s.addLine options n text).diagnostics = #[]) :
    s.diagnostics = #[] ∧ ∃ row, Row.ofLine? options text = some row ∧
      s.Takes options n row (s.addLine options n text) := by
  unfold addLine at h ⊢
  cases hrun : (Pass.sourceLine options n text).run s with
  | error e t => simp [hrun, report] at h
  | ok _ t =>
    obtain ⟨row, hrow, htakes⟩ := Pass.takes_of_sourceLine hrun
    simp only [hrun] at h
    exact ⟨htakes.diagnostics.symm.trans h, row, hrow, htakes⟩

theorem addLines_append {texts more : List (List Char)} : s.addLines options n (texts ++ more) =
    (s.addLines options n texts).addLines options (n + texts.length) more := by
  induction texts generalizing s n with
  | nil => rfl
  | cons text rest ih =>
    rw [List.cons_append, addLines, ih, addLines, List.length_cons, Nat.add_right_comm,
      Nat.add_assoc]

/-- Reports are never taken back. -/
theorem diagnostics_of_addLines {texts : List (List Char)}
    (h : (s.addLines options n texts).diagnostics = #[]) : s.diagnostics = #[] := by
  induction texts generalizing s n with
  | nil => exact h
  | cons text rest ih => exact (takes_of_addLine (ih h)).1

theorem sound_addLines {texts : List (List Char)} (hs : s.Sound n)
    (h : (s.addLines options n texts).diagnostics = #[]) :
    (s.addLines options n texts).Sound (n + texts.length) := by
  induction texts generalizing s n with
  | nil => exact hs
  | cons text rest ih =>
    obtain ⟨-, row, -, htakes⟩ := takes_of_addLine (diagnostics_of_addLines h)
    rw [List.length_cons, Nat.add_comm rest.length, ← Nat.add_assoc]
    exact ih (htakes.sound hs) h

/-- If nothing is wrong in a source, nothing is missing at its end. -/
theorem ofLines_eq_addLines {texts : List (List Char)}
    (h : (ofLines options texts).diagnostics = #[]) :
    ofLines options texts = addLines options {} 0 texts ∧
      (ofLines options texts).opened = none ∧ (ofLines options texts).started = true := by
  revert h
  simp only [ofLines]
  generalize addLines options {} 0 texts = laid
  cases hopened : laid.opened with
  | some b =>
    cases hstarted : laid.started <;> simp [hstarted, report]
  | none =>
    cases hstarted : laid.started with
    | false => simp [hstarted, report]
    | true => simp [hstarted, hopened]

/-- A source in which nothing is wrong is laid out in blocks all of which have ended. -/
theorem sound_ofLines {texts : List (List Char)} (h : (ofLines options texts).diagnostics = #[]) :
    (ofLines options texts).Sound texts.length := by
  obtain ⟨heq, -, -⟩ := ofLines_eq_addLines h
  rw [heq] at h ⊢
  have hsound := sound_addLines sound_empty h
  rwa [Nat.zero_add] at hsound

end Layout

end Comet.Assembly
