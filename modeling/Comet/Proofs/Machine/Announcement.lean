import Comet.Machine.Console

namespace Comet

namespace Step

@[simp] theorem wantsLine_done (m : Machine) : (done m).wantsLine = false := rfl

@[simp] theorem wantsLine_reads (m : Machine) : (reads m).wantsLine = true := rfl

@[simp] theorem wantsLine_writes (text : String) (m : Machine) :
    (writes text m).wantsLine = false := rfl

@[simp] theorem wantsLine_fault (f : Fault) (m : Machine) : (fault f m).wantsLine = false := rfl

end Step

namespace Machine

/-- The index register of a supervisor call makes an input of another call, or something else of an
input. -/
def Misannounces (m : Machine) (i : Instruction) : Prop :=
  i.mnemonic = .svc ∧ i.x ≠ 0 ∧
    ((i.base = svcInput ∧ m.register i.x ≠ .ok 0) ∨
      (i.base ≠ svcInput ∧ ∃ w, m.register i.x = .ok w ∧ i.base + w = svcInput))

@[simp] theorem attempt_wantsLine (m : Machine) (r : Except Fault Machine) :
    (m.attempt r).wantsLine = false := by
  cases r <;> rfl

theorem execute_wantsLine_of_ne_svc (m : Machine) (i : Instruction) (origin : Word)
    (hi : i.mnemonic ≠ .svc) : (m.execute i origin).wantsLine = false := by
  unfold execute
  cases hmnemonic : i.mnemonic with
  | svc => exact absurd hmnemonic hi
  | jump | ret =>
    simp only
    split <;> simp
  | _ => simp

theorem execute_wantsLine_of_svc (m : Machine) (i : Instruction) (origin : Word)
    (hi : i.mnemonic = .svc) :
    (m.execute i origin).wantsLine = true ↔ m.effectiveAddress i = .ok svcInput := by
  unfold execute
  rw [hi]
  cases m.effectiveAddress i with
  | error f => simp
  | ok code =>
    by_cases hinput : code = svcInput
    · simp [hinput]
    · simp only [hinput, if_false, Except.ok.injEq, iff_false]
      split <;> simp

theorem register_moved (m : Machine) (pr : Word) (r : RegisterField) (w : Word) :
    ({ m with pr } : Machine).register r = .ok w ↔ m.register r = .ok w := by
  unfold register
  split
  · rfl
  · split <;> simp

theorem effectiveAddress_eq_ok_iff (m : Machine) (i : Instruction) (w : Word) :
    m.effectiveAddress i = .ok w ↔
      (i.x = 0 ∧ i.base = w) ∨ (i.x ≠ 0 ∧ ∃ v, m.register i.x = .ok v ∧ i.base + v = w) := by
  unfold effectiveAddress
  by_cases hx : i.x = 0
  · simp [hx]
  · cases m.register i.x <;> simp [hx, Except.map]

/-- An instruction reads a line if and only if it is a supervisor call whose code, with the index
register added, is that of input. -/
theorem readsLine_iff (m : Machine) (i : Instruction) (hm : m.halted = false)
    (hi : m.instructionAt m.pr = .ok i) :
    m.ReadsLine ↔ i.mnemonic = .svc ∧
      ((i.x = 0 ∧ i.base = svcInput) ∨
        (i.x ≠ 0 ∧ ∃ w, m.register i.x = .ok w ∧ i.base + w = svcInput)) := by
  rw [ReadsLine, step_of_instructionAt hm hi]
  by_cases hsvc : i.mnemonic = .svc
  · rw [execute_wantsLine_of_svc _ _ _ hsvc, effectiveAddress_eq_ok_iff]
    simp only [register_moved, hsvc, true_and]
  · rw [execute_wantsLine_of_ne_svc _ _ _ hsvc]
    simp [hsvc]

theorem nextKind_eq_input_iff (m : Machine) (i : Instruction) (hi : m.instructionAt m.pr = .ok i) :
    m.nextKind = .ok .input ↔ i.mnemonic = .svc ∧ i.base = svcInput := by
  have hbase : i.adr = some svcInput ↔ i.base = svcInput := by
    unfold Instruction.base
    cases i.adr <;> simp [svcInput]
  simp only [nextKind, hi, Except.map, Except.ok.injEq, ← hbase]
  cases hm : i.mnemonic with
  | svc =>
    simp only [Instruction.kind, hm, true_and]
    split <;> simp_all
  | _ => simp [Instruction.kind, hm]

/-- The announcement of a decoded instruction is right but for the indexed supervisor calls. -/
theorem nextKind_iff_readsLine_iff (m : Machine) (i : Instruction) (hm : m.halted = false)
    (hi : m.instructionAt m.pr = .ok i) :
    (m.nextKind = .ok .input ↔ m.ReadsLine) ↔ ¬ m.Misannounces i := by
  rw [nextKind_eq_input_iff m i hi, readsLine_iff m i hm hi]
  unfold Misannounces
  by_cases hsvc : i.mnemonic = .svc
  · by_cases hx : i.x = 0
    · simp [hsvc, hx]
    · have hword (w : Word) : svcInput + w = svcInput ↔ w = 0 := by
        constructor <;> intro h <;> grind
      cases hr : m.register i.x with
      | error f => simp [hsvc, hx]
      | ok w =>
        by_cases hb : i.base = svcInput <;> simp [hsvc, hx, hb, hword]
  · simp [hsvc]

end Machine

end Comet
