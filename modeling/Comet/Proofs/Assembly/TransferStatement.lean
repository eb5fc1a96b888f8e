import Comet.Proofs.Assembly.Placement
import Comet.Proofs.Machine.Transfer

namespace Comet

namespace Assembly

section reading

variable {options : AssemblyOptions} {name : String} {operands : List String} {content : Content}

theorem Content.transfer_of_read? {service : Word}
    (hname : Operation.ofName? name = some (.transfer service))
    (h : read? options name operands = some content) : ∃ x y buffer length,
      operands = [x, y] ∧ addressOperand x.toList = .ok buffer ∧
        addressOperand y.toList = .ok length ∧
        content = .code (SymbolicInstruction.transfer service buffer length) := by
  obtain ⟨operation, hoperation, hreads⟩ := read?_eq_some_iff.mp h
  obtain rfl := Option.some.inj (hname.symm.trans hoperation)
  cases hreads with
  | transfer hbuffer hlength => exact ⟨_, _, _, _, rfl, hbuffer, hlength, rfl⟩

end reading

section decoded

variable {options : AssemblyOptions} {blocks : List ListingBlock} {b : ListingBlock}

/-- The instructions of the macro, with what its operands denote. -/
theorem transferCode_of_decoded {service : Word} {buffer length : Cell} {ds : List Instruction}
    (h : List.Forall₂ (SymbolicInstruction.Decoded options blocks b)
      (SymbolicInstruction.transfer service buffer length) ds) :
    ∃ v w, Denotes options blocks b buffer v ∧ Denotes options blocks b length w ∧
      ds = transferCode service v w := by
  simp only [SymbolicInstruction.transfer, SymbolicInstruction.save, SymbolicInstruction.restore,
    List.forall₂_cons_left_iff, List.forall₂_nil_left_iff] at h
  obtain ⟨d₁, _, h₁, ⟨d₂, _, h₂, ⟨d₃, _, h₃, ⟨d₄, _, h₄, ⟨d₅, _, h₅, ⟨d₆, _, h₆, ⟨d₇, _, h₇, rfl,
    rfl⟩, rfl⟩, rfl⟩, rfl⟩, rfl⟩, rfl⟩, rfl⟩ := h
  obtain ⟨_, rfl, rfl⟩ := h₁.eq_some
  obtain ⟨_, rfl, rfl⟩ := h₂.eq_some
  obtain ⟨v, hv, rfl⟩ := h₃.eq_some
  obtain ⟨w, hw, rfl⟩ := h₄.eq_some
  obtain ⟨_, rfl, rfl⟩ := h₅.eq_some
  obtain rfl := h₆.eq_none
  obtain rfl := h₇.eq_none
  exact ⟨v, w, hv, hw, rfl⟩

end decoded

end Assembly

section assemble

open Assembly

variable {source : String} {options : AssemblyOptions} {n : Nat} {text : List Char}
  {st : Statement}

/-- The statement is assembled at the location: its operands are addresses, which denote the buffer
and the word for the length in the block of the statement, and the twelve words are in the code. -/
structure TransferPlaced (source : String) (options : AssemblyOptions) (code : List Word) (n : Nat)
    (st : Statement) (service : Word) (a : Nat) (buffer length : Word) : Prop where
  operands : ∃ x y bufferCell lengthCell blocks b, st.operands = [x, y] ∧
    addressOperand x.toList = .ok bufferCell ∧ addressOperand y.toList = .ok lengthCell ∧
    Placed source options code n st.label
      (.code (SymbolicInstruction.transfer service bufferCell lengthCell)) blocks b a ∧
    Denotes options blocks b bufferCell buffer ∧ Denotes options blocks b lengthCell length
  fits : a + 12 ≤ code.length

/-- Any memory that has the words of the statement has the instructions of the transfer. -/
theorem exists_transferCode (h : (assemble source options).diagnostics = [])
    (htext : (Text.lines source.toList)[n]? = some text)
    (hst : Statement.ofLine text = .ok (some st)) {service : Word}
    (hname : (st.opcode, service) ∈ [("IN", svcInput), ("OUT", svcOutput)]) :
    ∃ p a buffer length, (assemble source options).program = some p ∧
      TransferPlaced source options p.code n st service a buffer length ∧
      ∀ m : Machine, m.AtCode p.code a 12 →
        m.memory.HasCode m.pr (transferCode service buffer length) := by
  obtain ⟨hoperation, hstart, hend⟩ : Operation.ofName? st.opcode = some (.transfer service) ∧
      st.opcode ≠ "START" ∧ st.opcode ≠ "END" := by
    simp only [List.mem_cons, Prod.mk.injEq, List.not_mem_nil, or_false] at hname
    rcases hname with ⟨hin, rfl⟩ | ⟨hout, rfl⟩
    · rw [hin]
      decide
    · rw [hout]
      decide
  obtain ⟨p, content, blocks, b, a, hp, hread, hplaced⟩ :=
    exists_placed_of_statement h htext hst hstart hend
  have hwell := Content.wellFormed_of_read? hread
  obtain ⟨x, y, bufferCell, lengthCell, hoperands, hx, hy, rfl⟩ :=
    Content.transfer_of_read? hoperation hread
  obtain ⟨ds, hds, hcode⟩ := hplaced.exists_hasCode hwell
  obtain ⟨buffer, length, hbuffer, hlength, rfl⟩ := transferCode_of_decoded hds
  exact ⟨p, a, buffer, length, hp, ⟨⟨x, y, bufferCell, lengthCell, blocks, b, hoperands, hx, hy,
    hplaced, hbuffer, hlength⟩, hplaced.fits (Nat.succ_pos 11)⟩, hcode⟩

/-- `IN` and `OUT` are transparent. Wherever one of them is assembled, seven steps take the machine
behind it with all registers, the stack pointer and the flags as they were, if nothing of what is
stored lies in its code or is stored upon something else. -/
theorem transfers_transparent (h : (assemble source options).diagnostics = [])
    (htext : (Text.lines source.toList)[n]? = some text)
    (hst : Statement.ofLine text = .ok (some st)) {service : Word}
    (hname : (st.opcode, service) ∈ [("IN", svcInput), ("OUT", svcOutput)]) :
    ∃ p a buffer length, (assemble source options).program = some p ∧
      TransferPlaced source options p.code n st service a buffer length ∧
      ∀ {σ : Type} (io : Console σ) (m : Machine) (s : σ), m.AtCode p.code a 12 →
        (st.opcode = "IN" →
          m.TransferRoom buffer length (inputChars (io.readLine s).1).length →
          ∃ m', m.stepsOn io s 7 = some (m', (io.readLine s).2) ∧
            m.LineStored buffer length (io.readLine s).1 m') ∧
        (st.opcode = "OUT" → m.TransferRoom buffer length (m.read length).toNat →
          ∃ m', m.stepsOn io s 7 =
              some (m', io.writeLine s (m.textAt buffer (m.read length).toNat)) ∧
            m.LineFetched m') := by
  obtain ⟨p, a, buffer, length, hp, hplaced, hcode⟩ := exists_transferCode h htext hst hname
  refine ⟨p, a, buffer, length, hp, hplaced, ?_⟩
  intro σ io m s hm
  have hstands := hcode m hm
  simp only [List.mem_cons, Prod.mk.injEq, List.not_mem_nil, or_false] at hname
  constructor
  · intro hin hroom
    rcases hname with ⟨-, rfl⟩ | ⟨hout, -⟩
    · exact Machine.input_transferred hm.running hstands hroom
    · rw [hin] at hout
      exact absurd hout (by decide)
  · intro hout hroom
    rcases hname with ⟨hin, -⟩ | ⟨-, rfl⟩
    · rw [hout] at hin
      exact absurd hin (by decide)
    · exact Machine.output_transferred hm.running hstands hroom

end assemble

/-- Writes the line that it reads. -/
def echoSource : String :=
  "MAIN START\n IN BUF,LEN\n OUT BUF,LEN\n RET\nBUF DS 8\nLEN DS 1\n END\n"

theorem echoed_line_stored : ∃ p m', (assemble echoSource {}).program = some p ∧
    ({ memory := .load p.code, gr := #v[0, 1, 2, 3, 4, 5, 6, 7], sp := 0x8000 } :
      Machine).stepsOn LineQueue.console ⟨["HI"], #[]⟩ 7 = some (m', ⟨[], #[]⟩) ∧
      m'.gr = #v[0, 1, 2, 3, 4, 5, 6, 7] ∧ m'.sp = 0x8000 ∧ m'.pr = 12 ∧ m'.read 33 = 2 ∧
      m'.read 25 = Word.ofChar 'H' ∧ m'.read 26 = Word.ofChar 'I' := by
  have hnone : (assemble echoSource {}).diagnostics = [] := by decide +kernel
  have htext : (Text.lines echoSource.toList)[1]? = some " IN BUF,LEN".toList := by decide +kernel
  have hst : Statement.ofLine " IN BUF,LEN".toList = .ok (some ⟨none, "IN", ["BUF", "LEN"]⟩) := by
    decide +kernel
  obtain ⟨p, a, buffer, length, hp, hplaced, htransparent⟩ :=
    transfers_transparent hnone htext hst List.mem_cons_self
  obtain ⟨x, y, bufferCell, lengthCell, blocks, b, hoperands, hx, hy, hline, hbuffer, hlength⟩ :=
    hplaced.operands
  cases hoperands
  obtain rfl : Cell.label "BUF" = bufferCell := Except.ok.inj hx
  obtain rfl : Cell.label "LEN" = lengthCell := Except.ok.inj hy
  have hlisting : (listing echoSource {}).all (fun blocks => ∀ b ∈ blocks,
      (∀ l ∈ b.body, l.line = 1 → l.location = 0) ∧
        (∃ l ∈ b.body, l.location = 25 ∧ l.label = some "BUF") ∧
        ∃ l ∈ b.body, l.location = 33 ∧ l.label = some "LEN") = true := by
    decide +kernel
  rw [hline.listed, Option.all_some, decide_eq_true_eq] at hlisting
  obtain ⟨hfirst, ⟨l, hl, hlocation, hlabel⟩, ⟨l', hl', hlocation', hlabel'⟩⟩ :=
    hlisting b hline.block
  obtain rfl : a = 0 := hfirst _ hline.line rfl
  obtain rfl : buffer = 25 :=
    UInt16.toNat_inj.mp ((hbuffer 25).mp (hlocation ▸ .own hl hlabel)).symm
  obtain rfl : length = 33 :=
    UInt16.toNat_inj.mp ((hlength 33).mp (hlocation' ▸ .own hl' hlabel')).symm
  obtain ⟨hin, -⟩ := htransparent LineQueue.console
    { memory := .load p.code, gr := #v[0, 1, 2, 3, 4, 5, 6, 7], sp := 0x8000 } ⟨["HI"], #[]⟩
    ⟨rfl, rfl, Memory.readAll_load p.code 0 12 hplaced.fits (by decide)⟩
  have hstack : ∀ k < 12, (0x8000 : Word) - 1 ≠ 0 + .ofNat k ∧
      (0x8000 : Word) - 2 ≠ 0 + .ofNat k := by
    decide
  have hcode : ∀ a ∈ ([33, 25, 26] : List Word), ∀ k < 12, a ≠ 0 + .ofNat k := by
    simp only [List.forall_mem_cons, List.not_mem_nil, false_implies, implies_true]
    decide
  have hsaved : ∀ a ∈ ([33, 25, 26] : List Word), a ≠ 0x8000 - 1 ∧ a ≠ 0x8000 - 2 := by
    simp only [List.forall_mem_cons, List.not_mem_nil, false_implies, implies_true]
    decide
  obtain ⟨m', hsteps, hstored⟩ := hin rfl ⟨hstack, hcode, hsaved⟩
  have hothers := hstored.others
  refine ⟨p, m', hp, hsteps, ?_, ?_, ?_, hstored.counted, ?_, ?_⟩
  · rw [hothers]
  · rw [hothers]
  · rw [hothers]
    rfl
  · exact hstored.stored 0 'H' rfl (by decide)
  · exact hstored.stored 1 'I' rfl (by decide)

end Comet
