import Comet.Proofs.Debug.LineStep
import Comet.Proofs.Machine.Announcement

namespace Comet

namespace LineStepper

variable {s : LineStepper}

theorem stepLine_waits_iff_announced {p : Program} {line : Nat} (hp : s.program = some p)
    (hentry : p.debug.isEntryLine line = false) (hinput : s.input = none) :
    (s.stepLine line).1 = .ok (.waits line) ↔ s.machine.nextKind = .ok .input := by
  rw [stepLine_waits_iff hp]
  simp [hentry, hinput]

end LineStepper

namespace Machine

/-- The supervisor call that the words make, with whatever follows in the registers. -/
theorem instructionAt_call {m : Machine} {x : RegisterField} (code : Word) (hpr : m.pr = 0)
    (hm : m.memory = .load [Instruction.encode 0xF0 0 x, code]) :
    m.instructionAt m.pr = .ok ⟨.svc, 0, x, some code⟩ := by
  have hread (a : Word) : m.read a = [Instruction.encode 0xF0 0 x, code].getD a.toNat 0 := by
    rw [read, hm, Memory.read_load]
  have hfirst : m.read 0 = Instruction.encode 0xF0 0 x := hread 0
  have hsecond : m.read (0 + 1) = code := hread (0 + 1)
  have hsvc : Mnemonic.ofOpcode? (Instruction.opcodeField (Instruction.encode 0xF0 0 x)) =
      some .svc := by
    rw [Instruction.opcodeField_encode]
    decide
  have hdecode : Instruction.decode (Instruction.encode 0xF0 0 x) code =
      some ⟨.svc, 0, x, some code⟩ := by
    simp only [Instruction.decode, hsvc, Instruction.rField_encode, Instruction.xField_encode]
    rfl
  simp only [instructionAt, hpr, hfirst, hsecond, hdecode]

/-- A machine at a supervisor call, with one in `GR1`. -/
def atCall (x : RegisterField) (code : Word) : Machine :=
  { memory := .load [Instruction.encode 0xF0 0 x, code],
    gr := .ofFn fun i => if i = 1 then 1 else 0 }

/-- The machine announces an input, and the stepper asks for a line, before exactly the instructions
that read one, unless the index register of a supervisor call changes what it calls. -/
theorem announces_exactly_the_reads_unless_indexed (m : Machine) (i : Instruction)
    (hm : m.halted = false) (hi : m.instructionAt m.pr = .ok i) :
    ((m.nextKind = .ok .input ↔ m.ReadsLine) ↔ ¬ m.Misannounces i) ∧
    ∀ (s : LineStepper) (p : Program) (line : Nat), s.machine = m → s.program = some p →
      p.debug.isEntryLine line = false → s.input = none →
      (((s.stepLine line).1 = .ok (.waits line) ↔ m.ReadsLine) ↔ ¬ m.Misannounces i) := by
  have hexact := m.nextKind_iff_readsLine_iff i hm hi
  refine ⟨hexact, ?_⟩
  rintro s p line rfl hp hentry hinput
  rw [LineStepper.stepLine_waits_iff_announced hp hentry hinput]
  exact hexact

theorem plain_supervisor_call_announced :
    ((atCall 0 1).nextKind = .ok .input ↔ (atCall 0 1).ReadsLine) ∧
      (({ machine := atCall 0 1, program := some ⟨[], 0, {}⟩ } : LineStepper).stepLine 0).1 =
        .ok (.waits 0) := by
  have hcall := instructionAt_call (m := atCall 0 1) 1 rfl rfl
  have hannounced : ¬ (atCall 0 1).Misannounces ⟨.svc, 0, 0, some 1⟩ := by simp [Misannounces]
  obtain ⟨hkind, hgate⟩ := announces_exactly_the_reads_unless_indexed (atCall 0 1) _ rfl hcall
  refine ⟨hkind.mpr hannounced, ((hgate _ _ 0 rfl rfl rfl rfl).mpr hannounced).mpr ?_⟩
  rw [readsLine_iff _ _ rfl hcall]
  exact ⟨rfl, Or.inl ⟨rfl, rfl⟩⟩

/-- Both directions fail: `SVC 0,GR1` reads a line that is not announced, and `SVC 1,GR1` is
announced and calls something else. -/
theorem indexed_supervisor_call_misannounced :
    ((atCall 1 0).nextKind = .ok .other ∧ (atCall 1 0).ReadsLine) ∧
      (atCall 1 1).nextKind = .ok .input ∧ ¬ (atCall 1 1).ReadsLine := by
  have hcall (code : Word) := instructionAt_call (m := atCall 1 code) code rfl rfl
  have hregister (code : Word) : (atCall 1 code).register 1 = .ok 1 := rfl
  refine ⟨⟨?_, ?_⟩, ?_, ?_⟩
  · rw [nextKind, hcall]
    rfl
  · rw [readsLine_iff _ _ rfl (hcall 0)]
    exact ⟨rfl, Or.inr ⟨by decide, 1, hregister 0, by decide⟩⟩
  · rw [nextKind, hcall]
    rfl
  · rw [readsLine_iff _ _ rfl (hcall 1)]
    simp [hregister, Instruction.base, svcInput]

end Machine

end Comet
