import Comet.Proofs.Assembly.Placement
import Comet.Proofs.Machine.SavedRegisters

namespace Comet

namespace Assembly

/-- The statements that save and restore the registers, with the instructions in the place of each
and what these are decoded to. -/
inductive MovesRegisters : String → List SymbolicInstruction → List Instruction → Prop
  | save : MovesRegisters "RPUSH" (Pass.savedRegisters.map SymbolicInstruction.save)
      (saveCode Machine.keptRegisters)
  | restore : MovesRegisters "RPOP" (Pass.savedRegisters.reverse.map SymbolicInstruction.restore)
      (restoreCode Machine.keptRegisters.reverse)

section moves

variable {options : AssemblyOptions} {name : String} {operands : List String} {content : Content}
  {is : List SymbolicInstruction} {code : List Instruction}

theorem MovesRegisters.ne_start_end (h : MovesRegisters name is code) :
    name ≠ "START" ∧ name ≠ "END" := by
  cases h <;> decide

theorem MovesRegisters.length_cells_pos (h : MovesRegisters name is code) :
    0 < (is.flatMap (·.cells)).length := by
  cases h <;> decide

/-- Neither of the two takes operands. -/
theorem MovesRegisters.of_read? (h : MovesRegisters name is code)
    (hread : Content.read? options name operands = some content) :
    operands = [] ∧ content = .code is := by
  obtain ⟨operation, hoperation, hreads⟩ := Content.read?_eq_some_iff.mp hread
  cases h with
  | save | restore =>
    obtain rfl := Option.some.inj hoperation
    cases hreads
    exact ⟨rfl, rfl⟩

end moves

section decoded

variable {options : AssemblyOptions} {blocks : List ListingBlock} {b : ListingBlock}

theorem savedRegisters_eq :
    Pass.savedRegisters = Machine.keptRegisters.map (Fin.castLE (by decide)) := rfl

/-- The instructions for some registers are decoded one by one. -/
theorem eq_map_of_decoded {symbolic : RegisterField → SymbolicInstruction}
    {decoded : Fin 8 → Instruction} {rs : List (Fin 8)} {ds : List Instruction}
    (heach : ∀ r d, (symbolic (r.castLE (by decide))).Decoded options blocks b d → d = decoded r)
    (h : List.Forall₂ (SymbolicInstruction.Decoded options blocks b)
      ((rs.map (Fin.castLE (by decide))).map symbolic) ds) : ds = rs.map decoded := by
  induction rs generalizing ds with
  | nil => exact List.forall₂_nil_left_iff.mp h
  | cons r rs ih =>
    obtain ⟨d, rest, hd, hrest, rfl⟩ := List.forall₂_cons_left_iff.mp h
    rw [heach r d hd, ih hrest, List.map_cons]

theorem MovesRegisters.eq_of_decoded {name : String} {is : List SymbolicInstruction}
    {code ds : List Instruction} (h : MovesRegisters name is code)
    (hds : List.Forall₂ (SymbolicInstruction.Decoded options blocks b) is ds) : ds = code := by
  cases h with
  | save =>
    rw [savedRegisters_eq] at hds
    refine eq_map_of_decoded (fun r d hd => ?_) hds
    obtain ⟨_, rfl, rfl⟩ := hd.eq_some
    rfl
  | restore =>
    rw [savedRegisters_eq, ← List.map_reverse] at hds
    exact eq_map_of_decoded (fun r d hd => hd.eq_none) hds

end decoded

end Assembly

section assemble

open Assembly

variable {source : String} {options : AssemblyOptions} {n : Nat} {text : List Char}
  {st : Statement}

/-- The statement takes no operands and is assembled to the instructions at the location. -/
structure RegistersPlaced (source : String) (options : AssemblyOptions) (code : List Word) (n : Nat)
    (st : Statement) (is : List SymbolicInstruction) (a : Nat) : Prop where
  operands : st.operands = []
  placed : ∃ blocks b, Placed source options code n st.label (.code is) blocks b a
  fits : a + (is.flatMap (·.cells)).length ≤ code.length

/-- Any memory that has the words of the statement has the instructions that move the registers. -/
theorem exists_registerCode (h : (assemble source options).diagnostics = [])
    (htext : (Text.lines source.toList)[n]? = some text)
    (hst : Statement.ofLine text = .ok (some st)) {is : List SymbolicInstruction}
    {code : List Instruction} {name : String} (hname : st.opcode = name)
    (hmoves : MovesRegisters name is code) :
    ∃ p a, (assemble source options).program = some p ∧
      RegistersPlaced source options p.code n st is a ∧
      ∀ m : Machine, m.AtCode p.code a (is.flatMap (·.cells)).length →
        m.memory.HasCode m.pr code := by
  obtain rfl := hname
  obtain ⟨hstart, hend⟩ := hmoves.ne_start_end
  obtain ⟨p, content, blocks, b, a, hp, hread, hplaced⟩ :=
    exists_placed_of_statement h htext hst hstart hend
  have hwell := Content.wellFormed_of_read? hread
  obtain ⟨hoperands, rfl⟩ := hmoves.of_read? hread
  obtain ⟨ds, hds, hcode⟩ := hplaced.exists_hasCode hwell
  obtain rfl := hmoves.eq_of_decoded hds
  exact ⟨p, a, hp, ⟨hoperands, ⟨blocks, b, hplaced⟩, hplaced.fits hmoves.length_cells_pos⟩, hcode⟩

/-- `RPUSH` and `RPOP` save and restore. Wherever they are assembled, seven steps through an `RPUSH`
lower the stack pointer by seven and change nothing else but the seven words that are on the stack
then, which must not be words of its code. Whatever becomes of the machine, once it is in front of
an `RPOP` with that stack pointer and those seven words, seven steps give the registers back what
they held and the stack pointer too, and leave all else as it is. -/
theorem saved_registers_restored (h : (assemble source options).diagnostics = [])
    (htext : (Text.lines source.toList)[n]? = some text)
    (hst : Statement.ofLine text = .ok (some st)) (hname : st.opcode = "RPUSH")
    {n' : Nat} {text' : List Char} {st' : Statement}
    (htext' : (Text.lines source.toList)[n']? = some text')
    (hst' : Statement.ofLine text' = .ok (some st')) (hname' : st'.opcode = "RPOP") :
    ∃ p a a', (assemble source options).program = some p ∧
      RegistersPlaced source options p.code n st
        (Pass.savedRegisters.map SymbolicInstruction.save) a ∧
      RegistersPlaced source options p.code n' st'
        (Pass.savedRegisters.reverse.map SymbolicInstruction.restore) a' ∧
      ∀ {σ : Type} (io : Console σ) (before : Machine) (s : σ), before.AtCode p.code a 14 →
        (∀ w ∈ stackAddresses before.sp 7, ∀ k < 14, w ≠ before.pr + .ofNat k) →
        ∃ behind, before.stepsOn io s 7 = some (behind, s) ∧ before.RegistersSaved behind ∧
          ∀ (m : Machine) (s' : σ), m.AtCode p.code a' 7 → m.sp = behind.sp →
            (∀ w ∈ stackAddresses before.sp 7, m.read w = behind.read w) →
            ∃ m', m.stepsOn io s' 7 = some (m', s') ∧ before.RegistersRestored m m' := by
  obtain ⟨p, a, hp, hplaced, hcode⟩ := exists_registerCode h htext hst hname .save
  obtain ⟨p', a', hp', hplaced', hcode'⟩ := exists_registerCode h htext' hst' hname' .restore
  obtain rfl := Option.some.inj (hp.symm.trans hp')
  refine ⟨p, a, a', hp, hplaced, hplaced', ?_⟩
  intro σ io before s hbefore hapart
  obtain ⟨behind, hsteps, hsaved⟩ :=
    Machine.registers_saved io s hbefore.running (hcode before hbefore) hapart
  refine ⟨behind, hsteps, hsaved, ?_⟩
  intro m s' hm hsp hkept
  have hpointer : behind.sp = before.sp - 7 := congrArg Machine.sp hsaved.others
  refine Machine.registers_restored io s' hm.running (hcode' m hm) (hsp.trans hpointer) ?_
  intro r hr
  have hword : before.sp - .ofNat r.val ∈ stackAddresses before.sp 7 := by
    refine List.mem_map.mpr ⟨r.val - 1, List.mem_range.mpr (by omega), ?_⟩
    rw [Nat.sub_add_cancel (Nat.pos_of_ne_zero fun hzero => hr (Fin.ext hzero))]
  rw [hkept _ hword]
  exact hsaved.saved r hr

end assemble

/-- Changes a register that it has saved. -/
def savingSource : String :=
  "MAIN START\n RPUSH\n LAD GR1,5\n RPOP\n RET\n END\n"

theorem changed_registers_restored : ∃ p, (assemble savingSource {}).program = some p ∧
    let before : Machine :=
      { memory := .load p.code, gr := #v[0, 1, 2, 3, 4, 5, 6, 7], sp := 0x8000 }
    ∃ behind m', before.stepsOn LineQueue.console ⟨[], #[]⟩ 7 = some (behind, ⟨[], #[]⟩) ∧
      behind.gr = before.gr ∧ behind.sp = 0x7ff9 ∧
      ({ behind with gr := .replicate 8 9, pr := 16 } : Machine).stepsOn LineQueue.console
        ⟨[], #[]⟩ 7 = some (m', ⟨[], #[]⟩) ∧
      m'.gr = #v[9, 1, 2, 3, 4, 5, 6, 7] ∧ m'.sp = 0x8000 := by
  have hnone : (assemble savingSource {}).diagnostics = [] := by decide +kernel
  have htext : (Text.lines savingSource.toList)[1]? = some " RPUSH".toList := by decide +kernel
  have hst : Statement.ofLine " RPUSH".toList = .ok (some ⟨none, "RPUSH", []⟩) := by decide +kernel
  have htext' : (Text.lines savingSource.toList)[3]? = some " RPOP".toList := by decide +kernel
  have hst' : Statement.ofLine " RPOP".toList = .ok (some ⟨none, "RPOP", []⟩) := by decide +kernel
  obtain ⟨p, a, a', hp, hplaced, hplaced', hrun⟩ :=
    saved_registers_restored hnone htext hst rfl htext' hst' rfl
  obtain ⟨blocks, b, hline⟩ := hplaced.placed
  obtain ⟨blocks', b', hline'⟩ := hplaced'.placed
  have hlisting : (listing savingSource {}).all (fun blocks => ∀ b ∈ blocks, ∀ l ∈ b.body,
      (l.line = 1 → l.location = 0) ∧ (l.line = 3 → l.location = 16)) = true := by
    decide +kernel
  have hfirst := hlisting
  rw [hline.listed, Option.all_some, decide_eq_true_eq] at hfirst
  rw [hline'.listed, Option.all_some, decide_eq_true_eq] at hlisting
  obtain rfl : a = 0 := (hfirst b hline.block _ hline.line).1 rfl
  obtain rfl : a' = 16 := (hlisting b' hline'.block _ hline'.line).2 rfl
  have hcode : ∀ w ∈ stackAddresses 0x8000 7, ∀ k < 14, w ≠ 0 + .ofNat k := by
    rw [stackAddresses, List.forall_mem_map]
    decide
  obtain ⟨behind, hsteps, hsaved, hback⟩ := hrun LineQueue.console
    { memory := .load p.code, gr := #v[0, 1, 2, 3, 4, 5, 6, 7], sp := 0x8000 } ⟨[], #[]⟩
    ⟨rfl, rfl, Memory.readAll_load p.code 0 14 hplaced.fits (by decide)⟩ hcode
  have hothers := hsaved.others
  have hlowered : (0x8000 : Word) - 7 = 0x7ff9 := by decide
  have hapart : ∀ k < 7, (16 : Word) + .ofNat k ∉ stackAddresses 0x8000 7 := by
    decide
  have hintact : behind.memory.readAll 16 7 = (Memory.load p.code).readAll 16 7 := by
    apply List.map_congr_left
    intro k hk
    exact hsaved.frame _ (hapart k (List.mem_range.mp hk))
  have hwords := hintact.trans (Memory.readAll_load p.code 16 7 hplaced'.fits (by decide))
  obtain ⟨m', hsteps', hrestored⟩ := hback { behind with gr := .replicate 8 9, pr := 16 } ⟨[], #[]⟩
    ⟨by rw [hothers], rfl, hwords⟩ rfl (fun _ _ => rfl)
  have hkept : ∀ r : Fin 8, r ≠ 0 →
      (#v[0, 1, 2, 3, 4, 5, 6, 7] : Vector Word 8).get r = #v[9, 1, 2, 3, 4, 5, 6, 7].get r := by
    decide
  have hregisters : ∀ r : Fin 8, m'.gr.get r = #v[9, 1, 2, 3, 4, 5, 6, 7].get r := by
    intro r
    by_cases hr : r = 0
    · rw [hr]
      exact hrestored.spared
    · exact (hrestored.restored r hr).trans (hkept r hr)
  refine ⟨p, hp, behind, m', hsteps, ?_, ?_, hsteps', ?_, ?_⟩
  · rw [hothers]
  · rw [hothers]
    exact hlowered
  · exact Vector.ext fun i hi => hregisters ⟨i, hi⟩
  · rw [hrestored.others]

end Comet
