import Comet.Proofs.Assembly.LineMap
import Comet.Proofs.Assembly.Rows
import Comet.Proofs.Machine.Faults

namespace Comet

/-- A register that may be written under the options. -/
def AssemblyOptions.Allows (options : AssemblyOptions) (r : RegisterField) : Prop :=
  r.val < 8 ∨ (r = 8 ∧ options.useGr8 = true)

/-- What may be written is there, if the machine has `GR8` whenever it may be written. -/
theorem AssemblyOptions.Allows.hasRegister {options : AssemblyOptions} {m : Machine}
    {r : RegisterField} (hgr8 : options.useGr8 = false ∨ m.options.gr8IsSp = true)
    (h : options.Allows r) : m.HasRegister r := by
  rcases h with hlow | ⟨height, huse⟩
  · exact Or.inl hlow
  · rcases hgr8 with hunused | hsp
    · rw [huse] at hunused
      cases hunused
    · exact Or.inr ⟨height, hsp⟩

namespace Assembly

section registers

variable {options : AssemblyOptions} {m : Mnemonic} {r : RegisterField} {i : SymbolicInstruction}

theorem allows_zero (options : AssemblyOptions) : options.Allows 0 := Or.inl (by decide)

theorem allows_of_register? {text : String}
    (h : SymbolicInstruction.register? options text = some r) : options.Allows r := by
  obtain ⟨hname, huse⟩ := register_eq_ok_iff.mp (register?_eq_some_iff.mp h)
  have hall : ∀ p ∈ SymbolicInstruction.registerNames, p.2.val < 8 ∨ p.2 = 8 := by decide
  exact (hall _ hname).imp_right fun height => ⟨height, huse height⟩

theorem allows_of_index? {index : Option String}
    (h : SymbolicInstruction.index? options index = some r) : options.Allows r := by
  cases index with
  | none =>
    obtain rfl := Option.some.inj h
    exact allows_zero options
  | some text =>
    rw [index?_eq_some_iff, indexRegister_eq_ok_iff, ← register?_eq_some_iff] at h
    exact allows_of_register? h.1

/-- Both registers of the instruction may be written. -/
def SymbolicInstruction.Allowed (options : AssemblyOptions) (i : SymbolicInstruction) : Prop :=
  options.Allows i.r ∧ options.Allows i.x

namespace SymbolicInstruction

theorem Reads.allowed {operands : List String} (h : Reads options m operands i) :
    i.Allowed options := by
  cases h with
  | empty hform => exact ⟨allows_zero options, allows_zero options⟩
  | register hform hr => exact ⟨allows_of_register? hr, allows_zero options⟩
  | registers hform hlike hr hx => exact ⟨allows_of_register? hr, allows_of_register? hx⟩
  | registerAddress index hform hr hadr hx | registerOrAddress index hform hlike hr hadr hx =>
    exact ⟨allows_of_register? hr, allows_of_index? hx⟩
  | address index hform hadr hx => exact ⟨allows_zero options, allows_of_index? hx⟩

theorem allowed_of_low (hr : i.r.val < 8) (hx : i.x.val < 8) : i.Allowed options :=
  ⟨Or.inl hr, Or.inl hx⟩

end SymbolicInstruction

/-- The macros name only general registers, and every other instruction what has been written. -/
theorem Content.Readable.allowed {is : List SymbolicInstruction}
    (h : (Content.code is).Readable options) : ∀ i ∈ is, i.Allowed options := by
  obtain ⟨name, operands, hread⟩ := h
  obtain ⟨operation, -, hreads⟩ := Content.read?_eq_some_iff.mp hread
  have hlow (hall : ∀ i ∈ is, i.r.val < 8 ∧ i.x.val < 8) : ∀ i ∈ is, i.Allowed options :=
    fun i hi => SymbolicInstruction.allowed_of_low (hall i hi).1 (hall i hi).2
  cases hreads with
  | transfer =>
    refine hlow ?_
    simp [SymbolicInstruction.transfer, SymbolicInstruction.save, SymbolicInstruction.restore]
  | save | restore => exact hlow (by decide)
  | machine hi => simpa using hi.allowed

/-- An instruction that begins among the words of a block is one of a line of the block. -/
theorem ListingBlock.exists_line_of_first {b : ListingBlock} {slot : Slot} {line : Nat}
    (hslot : slot ∈ b.slots) (hfirst : slot.first = some (line, i)) :
    ∃ l ∈ b.body, ∃ is, l.content = .code is ∧ i ∈ is := by
  rcases List.mem_append.mp hslot with hstatement | hliteral
  · obtain ⟨l, hl, hmem⟩ := List.mem_flatMap.mp hstatement
    refine ⟨l, hl, ?_⟩
    cases hcontent : l.content with
    | data cells =>
      rw [hcontent] at hmem
      obtain ⟨c, -, rfl⟩ := List.mem_map.mp hmem
      cases hfirst
    | code is =>
      rw [hcontent] at hmem
      obtain ⟨j, hj, hmem⟩ := List.mem_flatMap.mp hmem
      rcases List.mem_cons.mp hmem with rfl | hoperand
      · cases hfirst
        exact ⟨is, rfl, hj⟩
      · obtain ⟨c, -, rfl⟩ := List.mem_map.mp hoperand
        cases hfirst
  · rw [b.first_of_literal slot hliteral] at hfirst
    cases hfirst

end registers

end Assembly

section assemble

variable {source : String} {options : AssemblyOptions} {p : Program} {m : Machine}

/-- At an address of the line map, with its word in memory, the machine finds an instruction all
registers of which it has. -/
theorem exists_instruction_of_lineAt (h : (assemble source options).diagnostics = [])
    (hp : (assemble source options).program = some p)
    (hgr8 : options.useGr8 = false ∨ m.options.gr8IsSp = true)
    (hkey : (p.debug.lineAt m.pr).isSome = true)
    (hword : p.code[m.pr.toNat]? = some (m.read m.pr)) :
    ∃ d, m.instructionAt m.pr = .ok d ∧ m.HasRegister d.r ∧ m.HasRegister d.x := by
  obtain ⟨-, hassemble⟩ := assemble_eq_program h
  rw [hassemble] at hp
  obtain rfl := Option.some.inj hp
  obtain ⟨blocks, hlisted, hrealizes, hfrom⟩ := listing_of_assemble h
  have himage := hrealizes.image_of_assemble h hfrom
  rw [hrealizes.lineAt_eq hfrom (layoutOf_code_length_le h), Option.isSome_map] at hkey
  obtain ⟨⟨line, i⟩, hbegins⟩ := Option.isSome_iff_exists.mp hkey
  obtain ⟨slot, hslot, hfirst⟩ := Option.bind_eq_some_iff.mp hbegins
  obtain ⟨hi, hcode⟩ := himage.first_word hslot hfirst
  have hread : m.read m.pr = Instruction.encode i.opcode i.r i.x :=
    Option.some.inj (hword.symm.trans hcode)
  have hallowed : i.Allowed options := by
    obtain ⟨b, hb, hmem⟩ := List.mem_flatMap.mp (List.mem_of_getElem? hslot)
    obtain ⟨l, hl, is, hcontent, hmember⟩ := b.exists_line_of_first hmem hfirst
    have hreadable := Assembly.readable_of_listFrom hlisted nofun b hb l hl
    rw [hcontent] at hreadable
    exact hreadable.allowed i hmember
  refine ⟨⟨i.mnemonic, i.r, i.x, i.operand.map fun _ => m.read (m.pr + 1)⟩, ?_,
    hallowed.1.hasRegister hgr8, hallowed.2.hasRegister hgr8⟩
  rw [Machine.instructionAt, hread, hi.decode_encode]

/-- Assembled instructions do not get stuck: wherever the program counter is at an address of the
line map, and the word there is still that of the code, the next instruction is known and is carried
out, unless it calls the supervisor for a service that there is not. All else of the machine may be
whatever it likes, the word behind the first one included. -/
theorem assembled_instruction_never_stuck (h : (assemble source options).diagnostics = [])
    (hp : (assemble source options).program = some p)
    (hgr8 : options.useGr8 = false ∨ m.options.gr8IsSp = true)
    (hkey : (p.debug.lineAt m.pr).isSome = true)
    (hword : p.code[m.pr.toNat]? = some (m.read m.pr)) :
    (∃ kind, m.nextKind = .ok kind) ∧
      ∀ {σ : Type} (io : Console σ) (s : σ),
        (∃ halted, (m.stepOn io s).result = .ok halted) ∨
          ∃ code, (m.stepOn io s).result = .error (.unknownSupervisorCall m.pr code) := by
  obtain ⟨d, hd, hr, hx⟩ := exists_instruction_of_lineAt h hp hgr8 hkey hword
  refine ⟨⟨d.kind, by rw [Machine.nextKind, hd]; rfl⟩, fun io s => ?_⟩
  cases hresult : (m.stepOn io s).result with
  | ok halted => exact Or.inl ⟨halted, rfl⟩
  | error f =>
    obtain ⟨code, -, rfl⟩ :=
      Machine.unknownSupervisorCall_of_step hd hr hx (Machine.stepOn_eq_error_iff.mp hresult)
    exact Or.inr ⟨code, rfl⟩

end assemble

def stackSource : String := "MAIN START\n LAD GR8,-8\n SVC 0,GR8\n RET\n END\n"

/-- A machine in front of the supervisor call, the code of which is its stack pointer. -/
def stackMachine (p : Program) : Machine := { memory := .load p.code, sp := 7, pr := 2 }

theorem stack_code_never_stuck : ∃ p, (assemble stackSource {}).program = some p ∧
    (p.debug.lineAt (stackMachine p).pr).isSome = true ∧
    p.code[(stackMachine p).pr.toNat]? = some ((stackMachine p).read (stackMachine p).pr) ∧
    (∃ kind, (stackMachine p).nextKind = .ok kind) ∧
    ((∃ halted, ((stackMachine p).stepOn LineQueue.console {}).result = .ok halted) ∨
      ∃ code, ((stackMachine p).stepOn LineQueue.console {}).result =
        .error (.unknownSupervisorCall (stackMachine p).pr code)) := by
  have hnone : (assemble stackSource {}).diagnostics = [] := by decide +kernel
  have hprogram : (assemble stackSource {}).program.map
      (fun p => (p.debug.lineAt 2, p.code[2]?)) = some (some 2, some 0xF008) := by decide +kernel
  obtain ⟨p, hp, hsecond⟩ := Option.map_eq_some_iff.mp hprogram
  obtain ⟨hline, hcode⟩ := Prod.mk.inj hsecond
  have hkey : (p.debug.lineAt (stackMachine p).pr).isSome = true := by
    rw [show (stackMachine p).pr = 2 from rfl, hline]
    rfl
  have hword : p.code[(stackMachine p).pr.toNat]? =
      some ((stackMachine p).read (stackMachine p).pr) := by
    have hread : (stackMachine p).read 2 = p.code.getD 2 0 := Memory.read_load p.code 2
    rw [show (stackMachine p).pr = 2 from rfl, hread, List.getD_eq_getElem?_getD]
    exact hcode.trans (by rw [hcode]; rfl)
  obtain ⟨hkind, hstep⟩ := assembled_instruction_never_stuck hnone hp (Or.inr rfl) hkey hword
  exact ⟨p, hp, hkey, hword, hkind, hstep LineQueue.console {}⟩

end Comet
