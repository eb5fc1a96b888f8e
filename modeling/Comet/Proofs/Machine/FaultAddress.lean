import Comet.Assembly.Link
import Comet.Proofs.Machine.Faults

namespace Comet

namespace Fault

/-- Where the fault says that it has happened. A program that does not fit has no such place. -/
def address? : Fault → Option Word
  | invalidInstruction address _ | invalidRegister address _ | unknownSupervisorCall address _ =>
    some address
  | programTooLarge _ => none

/-- The register that the fault says is missing, if it is for want of one. -/
def register? : Fault → Option RegisterField
  | invalidRegister _ r => some r
  | _ => none

end Fault

theorem Instruction.size_ne_zero (i : Instruction) : i.size ≠ 0 := by
  unfold size
  split <;> decide

namespace Machine

variable {m : Machine} {f : Fault}

/-- The ways in which a step of the machine faults, each with the address that it names. -/
inductive FaultsWith (m : Machine) : Fault → Prop
  | undecoded (word : Word) : FaultsWith m (.invalidInstruction m.pr word)
  | register (i : Instruction) (r : RegisterField) (hi : m.instructionAt m.pr = .ok i)
      (hr : r = i.r ∨ r = i.x) (hmissing : ¬ m.HasRegister r) :
      FaultsWith m (.invalidRegister (m.pr + i.size) r)
  | service (code : Word) : FaultsWith m (.unknownSupervisorCall m.pr code)

theorem faultsWith_of_step (h : m.step.fault? = some f) : m.FaultsWith f := by
  unfold step at h
  split at h
  · cases h
  cases hi : m.instructionAt m.pr with
  | error e =>
    rw [hi] at h
    obtain rfl : e = f := Option.some.inj h
    unfold instructionAt at hi
    split at hi
    · cases hi
    · cases hi
      exact .undecoded _
  | ok i =>
    rw [hi] at h
    rcases execute_fault_cases h with ⟨r, hr, hmissing, rfl⟩ | ⟨code, -, rfl⟩
    · exact .register i r hi hr hmissing
    · exact .service code

/-- A fault names the address of the instruction if and only if it is not for want of a register.
One that is for want of a register names the address behind the instruction, which is never that of
the instruction itself. -/
theorem fault_names_instruction_unless_register_missing {σ : Type} {io : Console σ} {s : σ}
    (h : (m.stepOn io s).result = .error f) :
    (f.address? = some m.pr ↔ f.register? = none) ∧
      ∀ r, f.register? = some r → ∃ i, m.instructionAt m.pr = .ok i ∧ (r = i.r ∨ r = i.x) ∧
        ¬ m.HasRegister r ∧ f.address? = some (m.pr + i.size) := by
  have hfaults := faultsWith_of_step (stepOn_eq_error_iff.mp h)
  cases hfaults with
  | undecoded | service => exact ⟨iff_of_true rfl rfl, nofun⟩
  | register i r hi hr hmissing =>
    constructor
    · apply iff_of_false
      · intro hsame
        have hsize : m.pr + i.size = m.pr := Option.some.inj hsame
        apply i.size_ne_zero
        grind
      · nofun
    · rintro _ ⟨⟩
      exact ⟨i, hi, hr, hmissing, rfl⟩

/-- The assembler lets `GR8` be written whether or not the machine has it. -/
def gr8Source : String := "MAIN START\n LAD GR8,1\n RET\n END\n"

/-- The source loaded into a machine without register 8. -/
def gr8Machine : Machine :=
  ((assemble gr8Source {}).program.map fun p =>
    (load p { gr8IsSp := false }).toOption.getD {}).getD {}

theorem gr8Machine_faults :
    (gr8Machine.stepOn LineQueue.console {}).result = .error (.invalidRegister 2 8) := by
  have hresult : (match (gr8Machine.stepOn LineQueue.console {}).result with
      | .error f => some f
      | .ok _ => none) = some (.invalidRegister 2 8) := by decide +kernel
  cases hstep : (gr8Machine.stepOn LineQueue.console {}).result with
  | ok halted => simp [hstep] at hresult
  | error f => simpa [hstep] using hresult

/-- The instruction at address 0 has two words, and its fault names address 2. -/
theorem gr8_reported_behind_its_instruction :
    (gr8Machine.stepOn LineQueue.console {}).result = .error (.invalidRegister 2 8) ∧
      gr8Machine.pr = 0 ∧ ∃ i, gr8Machine.instructionAt gr8Machine.pr = .ok i ∧
        (8 = i.r ∨ 8 = i.x) ∧ ¬ gr8Machine.HasRegister 8 ∧
        some 2 = some (gr8Machine.pr + i.size) := by
  obtain ⟨-, hbehind⟩ := fault_names_instruction_unless_register_missing gr8Machine_faults
  exact ⟨gr8Machine_faults, by decide +kernel, hbehind 8 rfl⟩

/-- So a fault of a step may name another address than that of the instruction. -/
theorem fault_names_other_address : ∃ (m : Machine) (f : Fault) (address : Word),
    (m.stepOn LineQueue.console {}).result = .error f ∧ f.address? = some address ∧
      address ≠ m.pr := by
  refine ⟨gr8Machine, _, 2, gr8Machine_faults, rfl, ?_⟩
  have hpr : gr8Machine.pr = 0 := by decide +kernel
  rw [hpr]
  decide

end Machine

end Comet
