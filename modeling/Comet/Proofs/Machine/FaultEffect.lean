import Comet.Assembly.Link
import Comet.Proofs.Machine.Faults
import Comet.Proofs.Machine.PlainSteps

namespace Comet

namespace Machine

variable {m : Machine} {i : Instruction} {origin : Word} {f : Fault}

/-- All that the instructions work on is the same: memory, registers, stack pointer and flags. -/
structure SameData (m m' : Machine) : Prop where
  memory : m'.memory = m.memory
  gr : m'.gr = m.gr
  sp : m'.sp = m.sp
  flags : m'.flags = m.flags

/-- The instruction at the program counter takes a word from the stack, for the register `r`. -/
def AtPop (m : Machine) (r : RegisterField) : Prop :=
  ∃ i, m.instructionAt m.pr = .ok i ∧ i.mnemonic = .pop ∧ i.r = r

theorem attempt_machine_of_fault {r : Except Fault Machine}
    (h : (m.attempt r).fault? = some f) : (m.attempt r).machine = m := by
  cases r with
  | error e => rfl
  | ok m' => cases h

/-- An instruction that is not carried out leaves the machine as it is, unless it is a `POP`. -/
theorem execute_machine_of_fault (hi : i.mnemonic ≠ .pop)
    (h : (m.execute i origin).fault? = some f) : (m.execute i origin).machine = m := by
  unfold execute at h ⊢
  cases hmnemonic : i.mnemonic with
  | nop => rfl
  | pop => exact absurd hmnemonic hi
  | ld | st | lad | arithmetic | logic | compare | shift | push | call =>
    rw [hmnemonic] at h
    exact attempt_machine_of_fault h
  | jump op =>
    simp only [hmnemonic] at h ⊢
    by_cases htaken : op.taken m.flags.overflow m.flags.sign m.flags.zero = true
    · rw [if_pos htaken] at h ⊢
      exact attempt_machine_of_fault h
    · rw [if_neg htaken] at h
      cases h
  | ret =>
    simp only [hmnemonic] at h
    split at h <;> cases h
  | svc =>
    simp only [hmnemonic] at h ⊢
    cases hcode : m.effectiveAddress i with
    | error e => rfl
    | ok code =>
      simp only [hcode] at h ⊢
      split
      · rfl
      · split <;> rfl

theorem execute_machine_of_pop_fault (hi : i.mnemonic = .pop)
    (h : (m.execute i origin).fault? = some f) :
    (m.execute i origin).machine = { m with sp := m.sp + 1 } ∧ ¬ m.HasRegister i.r := by
  unfold execute at h ⊢
  simp only [hi] at h ⊢
  refine ⟨attempt_machine_of_fault h, ?_⟩
  cases hset : m.pop.2.setRegister i.r m.pop.1 with
  | error e =>
    have hmissing : ¬ m.pop.2.HasRegister i.r := (setRegister_eq_error hset).1
    exact hmissing
  | ok m' =>
    rw [hset] at h
    cases h

/-- The machines that a faulting step leaves behind. -/
inductive LeavesBehind (m : Machine) : Machine → Prop
  | undecoded (f : Fault) (hi : m.instructionAt m.pr = .error f) : LeavesBehind m m
  | decoded (i : Instruction) (hi : m.instructionAt m.pr = .ok i) (hpop : i.mnemonic ≠ .pop) :
      LeavesBehind m { m with pr := m.pr + i.size }
  | popped (i : Instruction) (hi : m.instructionAt m.pr = .ok i) (hpop : i.mnemonic = .pop)
      (hmissing : ¬ m.HasRegister i.r) :
      LeavesBehind m { m with pr := m.pr + i.size, sp := m.sp + 1 }

theorem leavesBehind_of_step (h : m.step.fault? = some f) : m.LeavesBehind m.step.machine := by
  cases hm : m.halted with
  | true =>
    have hstep : m.step = .done m := by simp [step, hm]
    rw [hstep] at h
    cases h
  | false =>
    cases hi : m.instructionAt m.pr with
    | error e =>
      rw [step_of_no_instruction hm hi]
      exact .undecoded e hi
    | ok i =>
      rw [step_of_instructionAt hm hi] at h ⊢
      by_cases hpop : i.mnemonic = .pop
      · obtain ⟨hmachine, hmissing⟩ := execute_machine_of_pop_fault hpop h
        rw [hmachine]
        exact .popped i hi hpop hmissing
      · rw [execute_machine_of_fault hpop h]
        exact .decoded i hi hpop

/-- A step that faults has not asked its console for anything. -/
theorem stepOn_of_fault {σ : Type} {io : Console σ} {s : σ} (h : m.step.fault? = some f) :
    m.stepOn io s = ⟨.error f, m.step.machine, s⟩ := by
  unfold stepOn
  cases hstep : m.step with
  | done | reads | writes => simp [hstep, Step.fault?] at h
  | fault g m' =>
    rw [hstep] at h
    cases h
    rfl

/-- A step that faults leaves all data as it was if and only if it is not that of a `POP`. A `POP`
that faults has no register for its word, and the stack pointer has moved on. Either way nothing but
the program counter and the stack pointer changes, and the console has not been asked for
anything. -/
theorem fault_changes_data_iff_pop {σ : Type} {io : Console σ} {s : σ}
    (h : (m.stepOn io s).result = .error f) :
    (m.stepOn io s).console = s ∧
      (∃ pr sp, (m.stepOn io s).machine = { m with pr, sp }) ∧
      (m.SameData (m.stepOn io s).machine ↔ ¬ ∃ r, m.AtPop r) ∧
      ∀ r, m.AtPop r → (m.stepOn io s).machine.sp = m.sp + 1 ∧ ¬ m.HasRegister r := by
  have hfault := stepOn_eq_error_iff.mp h
  have hleft := leavesBehind_of_step hfault
  rw [stepOn_of_fault hfault]
  generalize m.step.machine = m' at hleft
  refine ⟨rfl, ?_⟩
  cases hleft with
  | undecoded e hi =>
    have hpop : ¬ ∃ r, m.AtPop r := by
      rintro ⟨r, i, hi', -⟩
      rw [hi] at hi'
      cases hi'
    exact ⟨⟨m.pr, m.sp, rfl⟩, iff_of_true ⟨rfl, rfl, rfl, rfl⟩ hpop,
      fun r hr => absurd ⟨r, hr⟩ hpop⟩
  | decoded i hi hnone =>
    have hpop : ¬ ∃ r, m.AtPop r := by
      rintro ⟨r, i', hi', hpop, -⟩
      obtain rfl : i = i' := Except.ok.inj (hi.symm.trans hi')
      exact hnone hpop
    exact ⟨⟨m.pr + i.size, m.sp, rfl⟩, iff_of_true ⟨rfl, rfl, rfl, rfl⟩ hpop,
      fun r hr => absurd ⟨r, hr⟩ hpop⟩
  | popped i hi hpop hmissing =>
    refine ⟨⟨m.pr + i.size, m.sp + 1, rfl⟩, iff_of_false ?_ ?_, ?_⟩
    · intro hsame
      have hsp : m.sp + 1 = m.sp := hsame.sp
      grind
    · exact fun hnone => hnone ⟨i.r, i, hi, hpop, rfl⟩
    · rintro r ⟨i', hi', -, rfl⟩
      obtain rfl : i = i' := Except.ok.inj (hi.symm.trans hi')
      exact ⟨rfl, hmissing⟩

/-- Takes a word from the stack for register 8. -/
def poppingSource : String := "MAIN START\n POP GR8\n RET\n END\n"

/-- The source loaded into a machine without register 8. -/
def poppingMachine : Machine :=
  ((assemble poppingSource {}).program.map fun p =>
    (load p { gr8IsSp := false }).toOption.getD {}).getD {}

theorem poppingMachine_faults :
    (poppingMachine.stepOn LineQueue.console {}).result = .error (.invalidRegister 1 8) := by
  have hresult : poppingMachine.step.fault? = some (.invalidRegister 1 8) := by decide +kernel
  exact stepOn_eq_error_iff.mpr hresult

theorem poppingMachine_atPop : poppingMachine.AtPop 8 :=
  ⟨⟨.pop, 8, 0, none⟩, instructionAt_eq_ok_iff.mpr (by decide +kernel), rfl, rfl⟩

/-- The empty stack has one word less behind the fault, and nothing else has changed. -/
theorem stack_pointer_moved_without_register :
    (poppingMachine.stepOn LineQueue.console {}).result = .error (.invalidRegister 1 8) ∧
      poppingMachine.AtPop 8 ∧ (poppingMachine.stepOn LineQueue.console {}).console = {} ∧
      (poppingMachine.stepOn LineQueue.console {}).machine.sp = poppingMachine.sp + 1 := by
  obtain ⟨hconsole, -, -, hpop⟩ := fault_changes_data_iff_pop poppingMachine_faults
  exact ⟨poppingMachine_faults, poppingMachine_atPop, hconsole, (hpop 8 poppingMachine_atPop).1⟩

/-- So not every instruction that faults has no effect. -/
theorem fault_changes_data : ∃ (m : Machine) (f : Fault),
    (m.stepOn LineQueue.console {}).result = .error f ∧
      ¬ m.SameData (m.stepOn LineQueue.console {}).machine := by
  refine ⟨poppingMachine, _, poppingMachine_faults, fun hsame => ?_⟩
  have hsp : (poppingMachine.stepOn LineQueue.console {}).machine.sp ≠ poppingMachine.sp := by
    decide +kernel
  exact hsp hsame.sp

end Machine

end Comet
