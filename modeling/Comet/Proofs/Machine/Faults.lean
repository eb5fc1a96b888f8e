import Comet.Machine.Console

namespace Comet

/-- The fault that the step ends in, if it does. -/
def Step.fault? : Step → Option Fault
  | .fault f _ => some f
  | _ => none

namespace Machine

/-- Register 8 is there only as the stack pointer. -/
def HasRegister (m : Machine) (r : RegisterField) : Prop :=
  r.val < 8 ∨ (r = 8 ∧ m.options.gr8IsSp = true)

/-- The fault says that one of the two registers of the instruction is missing. -/
def MissesRegister (m : Machine) (i : Instruction) (f : Fault) : Prop :=
  ∃ r, (r = i.r ∨ r = i.x) ∧ ¬ m.HasRegister r ∧ f = .invalidRegister m.pr r

/-- If anything goes wrong, it is for want of a register of the instruction. -/
def Blames {α : Type} (m : Machine) (i : Instruction) (x : Except Fault α) : Prop :=
  ∀ f, x = .error f → m.MissesRegister i f

section blames

variable {α β : Type} {m : Machine} {i : Instruction} {r : RegisterField}

theorem blames_pure (a : α) : m.Blames i (pure a) := nofun

theorem blames_bind {x : Except Fault α} {g : α → Except Fault β} (hx : m.Blames i x)
    (hg : ∀ a, m.Blames i (g a)) : m.Blames i (x >>= g) := by
  intro f hf
  cases x with
  | error e =>
    obtain rfl : e = f := Except.error.inj hf
    exact hx e rfl
  | ok a => exact hg a f hf

theorem blames_map {x : Except Fault α} (g : α → β) (hx : m.Blames i x) :
    m.Blames i (x.map g) := by
  intro f hf
  cases x with
  | error e =>
    obtain rfl : e = f := Except.error.inj hf
    exact hx e rfl
  | ok a => cases hf

theorem register_of_missing (h : ¬ m.HasRegister r) :
    m.register r = .error (.invalidRegister m.pr r) := by
  unfold register
  rw [dif_neg fun hr => h (.inl hr), if_neg fun hr => h (.inr hr)]

theorem exists_register (h : m.HasRegister r) : ∃ w, m.register r = .ok w := by
  unfold register
  by_cases hr : r.val < 8
  · exact ⟨_, dif_pos hr⟩
  · exact ⟨m.sp, by rw [dif_neg hr, if_pos (h.resolve_left hr)]⟩

theorem blames_register (hr : r = i.r ∨ r = i.x) : m.Blames i (m.register r) := by
  intro f hf
  by_cases hhas : m.HasRegister r
  · obtain ⟨w, hw⟩ := exists_register hhas
    rw [hw] at hf
    cases hf
  · rw [register_of_missing hhas] at hf
    exact ⟨r, hr, hhas, (Except.error.inj hf).symm⟩

theorem setRegister_eq_error {w : Word} {f : Fault} (hf : m.setRegister r w = .error f) :
    ¬ m.HasRegister r ∧ f = .invalidRegister m.pr r := by
  unfold setRegister at hf
  by_cases hlow : r.val < 8
  · rw [dif_pos hlow] at hf
    cases hf
  · rw [dif_neg hlow] at hf
    by_cases hsp : r = 8 ∧ m.options.gr8IsSp = true
    · rw [if_pos hsp] at hf
      cases hf
    · rw [if_neg hsp] at hf
      exact ⟨fun hhas => hhas.elim hlow hsp, (Except.error.inj hf).symm⟩

theorem blames_setRegister (hr : r = i.r ∨ r = i.x) (w : Word) :
    m.Blames i (m.setRegister r w) := fun _ hf => ⟨r, hr, setRegister_eq_error hf⟩

theorem blames_setResult (w : Word) (overflow : Bool) : m.Blames i (m.setResult i.r w overflow) :=
  blames_bind (blames_setRegister (Or.inl rfl) w) fun _ => blames_pure _

theorem blames_effectiveAddress : m.Blames i (m.effectiveAddress i) := by
  unfold effectiveAddress
  split
  · exact blames_pure _
  · exact blames_map _ (blames_register (Or.inr rfl))

theorem blames_operand : m.Blames i (m.operand i) := by
  unfold operand
  split
  · exact blames_map _ blames_effectiveAddress
  · exact blames_register (Or.inr rfl)

theorem Blames.attempt {x : Except Fault Machine} (hx : m.Blames i x) (m' : Machine) {f : Fault}
    (hf : (m'.attempt x).fault? = some f) : m.MissesRegister i f := by
  cases x with
  | error e =>
    obtain rfl : e = f := Option.some.inj hf
    exact hx e rfl
  | ok => cases hf

/-- An instruction that cannot be carried out wants a register or an unknown service. -/
theorem execute_fault_cases {origin : Word} {f : Fault}
    (h : (m.execute i origin).fault? = some f) :
    m.MissesRegister i f ∨
      ∃ code, i.mnemonic = .svc ∧ f = .unknownSupervisorCall origin code := by
  have hr : m.Blames i (m.register i.r) := blames_register (Or.inl rfl)
  unfold execute at h
  cases hmnemonic : i.mnemonic with
  | nop => simp [hmnemonic, Step.fault?] at h
  | ld =>
    rw [hmnemonic] at h
    exact Or.inl ((blames_bind blames_operand fun _ => blames_setResult _ _).attempt _ h)
  | st =>
    rw [hmnemonic] at h
    exact Or.inl ((blames_bind blames_effectiveAddress fun _ =>
      blames_bind hr fun _ => blames_pure _).attempt _ h)
  | lad =>
    rw [hmnemonic] at h
    exact Or.inl ((blames_bind blames_effectiveAddress fun _ =>
      blames_setRegister (Or.inl rfl) _).attempt _ h)
  | arithmetic op | logic op =>
    rw [hmnemonic] at h
    exact Or.inl ((blames_bind hr fun _ =>
      blames_bind blames_operand fun _ => blames_setResult _ _).attempt _ h)
  | compare op =>
    rw [hmnemonic] at h
    exact Or.inl ((blames_bind hr fun _ =>
      blames_bind blames_operand fun _ => blames_pure _).attempt _ h)
  | shift op =>
    rw [hmnemonic] at h
    exact Or.inl ((blames_bind hr fun _ =>
      blames_bind blames_effectiveAddress fun _ => blames_setResult _ _).attempt _ h)
  | jump op =>
    simp only [hmnemonic] at h
    split at h
    · exact Or.inl ((blames_bind blames_effectiveAddress fun _ => blames_pure _).attempt _ h)
    · cases h
  | push | call =>
    rw [hmnemonic] at h
    exact Or.inl ((blames_bind blames_effectiveAddress fun _ => blames_pure _).attempt _ h)
  | pop =>
    rw [hmnemonic] at h
    have hpop : m.Blames i (m.pop.2.setRegister i.r m.pop.1) := by
      intro f hf
      obtain ⟨r, hr, hmissing, hf⟩ := blames_setRegister (i := i) (Or.inl rfl) _ f hf
      exact ⟨r, hr, hmissing, hf⟩
    exact Or.inl (hpop.attempt _ h)
  | ret =>
    simp only [hmnemonic] at h
    split at h <;> cases h
  | svc =>
    simp only [hmnemonic] at h
    cases hcode : m.effectiveAddress i with
    | error e =>
      simp only [hcode, Step.fault?, Option.some.injEq] at h
      rw [← h]
      exact Or.inl (blames_effectiveAddress e hcode)
    | ok code =>
      simp only [hcode] at h
      split at h
      · cases h
      · split at h
        · cases h
        · exact Or.inr ⟨code, rfl, (Option.some.inj h).symm⟩

end blames

/-- A machine that has the registers of the instruction at its program counter carries it out,
unless it is a call of the supervisor for an unknown service. -/
theorem unknownSupervisorCall_of_step {m : Machine} {i : Instruction} {f : Fault}
    (hi : m.instructionAt m.pr = .ok i) (hr : m.HasRegister i.r) (hx : m.HasRegister i.x)
    (h : m.step.fault? = some f) :
    ∃ code, i.mnemonic = .svc ∧ f = .unknownSupervisorCall m.pr code := by
  unfold step at h
  split at h
  · cases h
  · rw [hi] at h
    rcases execute_fault_cases h with ⟨r, rfl | rfl, hmissing, -⟩ | hsupervisor
    · exact absurd hr hmissing
    · exact absurd hx hmissing
    · exact hsupervisor

theorem instructionAt_congr {m m' : Machine} (h : m'.memory = m.memory) (address : Word) :
    m'.instructionAt address = m.instructionAt address := by
  simp only [instructionAt, read, h]

theorem instructionAt_eq_ok_iff {m : Machine} {address : Word} {i : Instruction} :
    m.instructionAt address = .ok i ↔
      Instruction.decode (m.read address) (m.read (address + 1)) = some i := by
  unfold instructionAt
  cases Instruction.decode (m.read address) (m.read (address + 1)) <;> simp

theorem stepOn_eq_error_iff {σ : Type} {io : Console σ} {m : Machine} {s : σ} {f : Fault} :
    (m.stepOn io s).result = .error f ↔ m.step.fault? = some f := by
  unfold stepOn
  cases m.step <;> simp [Step.fault?]

end Machine

end Comet
