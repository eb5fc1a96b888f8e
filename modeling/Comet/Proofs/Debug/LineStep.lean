import Comet.Debug.LineStepper

namespace Comet

/-- The line at which execution is after an instruction of the given kind: the START line of the
subroutine after a call, and the line of the next instruction after anything else. -/
def DebugMap.arrival (d : DebugMap) (kind : InstructionKind) (address : Word) : Option Nat :=
  match kind with
  | .call => (d.subroutineAt address).map (·.startLine)
  | _ => d.lineAt address

namespace LineStepper

/-- The instruction at the program counter is an input for which there is no line yet. -/
def Gated (s : LineStepper) (kind : InstructionKind) : Prop := kind = .input ∧ s.input = none

instance (s : LineStepper) (kind : InstructionKind) : Decidable (s.Gated kind) :=
  inferInstanceAs (Decidable (_ ∧ _))

/-- A launch either loads the program, whatever the stepper has been used for before, or leaves the
stepper as it was. -/
theorem launch_cases (s : LineStepper) (compiled : Assembled) (options : MachineOptions) :
    (∃ p m entry, compiled.diagnostics = [] ∧ compiled.program = some p ∧
      p.debug.entrySubroutine = some entry ∧ Machine.load p options = .ok m ∧
      s.launch compiled options =
        (.ok [], { machine := m, program := some p, stack := .start entry.name })) ∨
    ((s.launch compiled options).1 ≠ .ok [] ∧ (s.launch compiled options).2 = s) := by
  unfold launch
  cases hdiagnostics : compiled.diagnostics with
  | cons d ds => exact Or.inr (by simp)
  | nil =>
    cases hprogram : compiled.program with
    | none => exact Or.inr (by simp)
    | some p =>
      cases hentry : p.debug.entrySubroutine with
      | none => exact Or.inr (by simp [hentry])
      | some entry =>
        cases hload : Machine.load p options with
        | error f => exact Or.inr (by simp [hentry, hload])
        | ok m => exact Or.inl ⟨p, m, entry, by simp [hentry, hload]⟩

/-- A launch that does not fail hands the diagnostics back. -/
theorem launch_answer (s : LineStepper) (compiled : Assembled) (options : MachineOptions) :
    match (s.launch compiled options).1 with
    | .ok ds => ds = compiled.diagnostics
    | .error _ => compiled.diagnostics = [] := by
  unfold launch
  cases hdiagnostics : compiled.diagnostics with
  | cons d ds => simp
  | nil =>
    cases hprogram : compiled.program with
    | none => simp
    | some p =>
      cases hentry : p.debug.entrySubroutine with
      | none => simp [hentry]
      | some entry => cases hload : Machine.load p options <;> simp [hentry, hload]

/-- Leaving the line executes an instruction. -/
def executes (s : LineStepper) (line : Nat) : Bool :=
  !s.isEntryLine line && match s.program, s.machine.nextKind with
    | some _, .ok kind => !decide (s.Gated kind)
    | _, _ => false

/-- The outcomes of leaving a line, each with what leads to it. -/
inductive Leaves (s : LineStepper) (p : Program) (line : Nat) :
    Except StepError LineStep → LineStepper → Prop
  | start (hentry : p.debug.isEntryLine line = true) :
      Leaves s p line (.ok (.moved (some (line + 1)))) s
  | undecoded (hentry : p.debug.isEntryLine line = false) (f : Fault)
      (hkind : s.machine.nextKind = .error f) : Leaves s p line (.error (.fault f)) s
  | gate (hentry : p.debug.isEntryLine line = false) (hkind : s.machine.nextKind = .ok .input)
      (hinput : s.input = none) : Leaves s p line (.ok (.waits line)) s
  | fault (hentry : p.debug.isEntryLine line = false) (kind : InstructionKind)
      (hkind : s.machine.nextKind = .ok kind) (hgate : ¬ s.Gated kind) (f : Fault)
      (hrun : s.execute.1 = .error f) : Leaves s p line (.error (.fault f)) s.execute.2
  | executed (hentry : p.debug.isEntryLine line = false) (kind : InstructionKind)
      (hkind : s.machine.nextKind = .ok kind) (hgate : ¬ s.Gated kind) (halted : Bool)
      (hrun : s.execute.1 = .ok halted) :
      Leaves s p line (s.execute.2.settle p.debug line kind halted).1
        (s.execute.2.settle p.debug line kind halted).2

theorem stepLine_leaves (s : LineStepper) (p : Program) (line : Nat) (hp : s.program = some p) :
    s.Leaves p line (s.stepLine line).1 (s.stepLine line).2 := by
  unfold stepLine
  simp only [hp]
  by_cases hentry : p.debug.isEntryLine line = true
  · simp only [hentry, if_true]
    exact .start hentry
  · have hentry' : p.debug.isEntryLine line = false := by simpa using hentry
    simp only [hentry', Bool.false_eq_true, if_false]
    cases hkind : s.machine.nextKind with
    | error f => exact .undecoded hentry' f hkind
    | ok kind =>
      by_cases hgate : s.Gated kind
      · obtain ⟨rfl, hinput⟩ := hgate
        simp only [hinput, Option.isNone_none, and_self, if_true]
        exact .gate hentry' hkind hinput
      · have hgate' : ¬ (kind = .input ∧ s.input.isNone = true) := by
          simpa [Gated, Option.isNone_iff_eq_none] using hgate
        simp only [hgate', if_false]
        cases hrun : s.execute with
        | mk result t =>
          cases result with
          | error f =>
            have h := Leaves.fault (p := p) hentry' kind hkind hgate f (by rw [hrun])
            rwa [hrun] at h
          | ok halted =>
            have h := Leaves.executed (p := p) hentry' kind hkind hgate halted (by rw [hrun])
            rwa [hrun] at h

@[simp] theorem execute_program (s : LineStepper) : s.execute.2.program = s.program := rfl

@[simp] theorem execute_input (s : LineStepper) : s.execute.2.input = none := rfl

section settle

variable (s : LineStepper) (d : DebugMap) (line : Nat) (kind : InstructionKind) (halted : Bool)

theorem settle_eq : (s.settle d line kind halted).2 =
    { s with stack := (s.settle d line kind halted).2.stack } := by
  cases kind with
  | call => cases h : d.subroutineAt s.machine.pr <;> simp [settle, h]
  | _ => rfl

@[simp] theorem settle_machine : (s.settle d line kind halted).2.machine = s.machine := by
  rw [settle_eq]

@[simp] theorem settle_program : (s.settle d line kind halted).2.program = s.program := by
  rw [settle_eq]

@[simp] theorem settle_input : (s.settle d line kind halted).2.input = s.input := by
  rw [settle_eq]

@[simp] theorem settle_output : (s.settle d line kind halted).2.output = s.output := by
  rw [settle_eq]

/-- An instruction ends the step at its line of arrival; only a call can arrive nowhere. -/
theorem settle_answer :
    (s.settle d line kind halted).1 =
      if kind = .call ∧ d.subroutineAt s.machine.pr = none then
        .error (.unmappedCallTarget s.machine.pr)
      else .ok (if halted then .ended (d.arrival kind s.machine.pr)
        else .moved (d.arrival kind s.machine.pr)) := by
  cases kind with
  | call => cases h : d.subroutineAt s.machine.pr <;> simp [settle, h, DebugMap.arrival]
  | _ => rfl

end settle

/-- Execution goes on either below a START line, nothing having happened, or where the instruction
has arrived. -/
theorem stepLine_moved {s : LineStepper} {p : Program} {line next : Nat}
    (hp : s.program = some p) (h : (s.stepLine line).1 = .ok (.moved (some next))) :
    (p.debug.isEntryLine line = true ∧ next = line + 1 ∧ (s.stepLine line).2 = s) ∨
    ∃ kind, p.debug.isEntryLine line = false ∧ s.machine.nextKind = .ok kind ∧ ¬ s.Gated kind ∧
      s.execute.1 = .ok false ∧
      (s.stepLine line).2 = (s.execute.2.settle p.debug line kind false).2 ∧
      p.debug.arrival kind (s.stepLine line).2.machine.pr = some next := by
  have hleaves := s.stepLine_leaves p line hp
  generalize (s.stepLine line).1 = result, (s.stepLine line).2 = t at h hleaves ⊢
  cases hleaves with
  | start hentry => exact Or.inl ⟨hentry, by simpa using h.symm, rfl⟩
  | undecoded | gate | fault => simp at h
  | executed hentry kind hkind hgate halted hrun =>
    rw [settle_answer] at h
    split at h
    · simp at h
    · cases halted with
      | true => simp at h
      | false =>
        refine Or.inr ⟨kind, hentry, hkind, hgate, hrun, rfl, ?_⟩
        rw [settle_machine]
        simpa using h

theorem peek_of_moved {s : LineStepper} {line next : Nat}
    (h : (s.stepLine line).1 = .ok (.moved (some next))) : ∃ kind, s.peek line = .ok kind := by
  cases hp : s.program with
  | none => simp [stepLine, hp] at h
  | some p =>
    rcases stepLine_moved hp h with ⟨hentry, -, -⟩ | ⟨kind, hentry, hkind, -, -, -, -⟩
    · exact ⟨none, by simp [peek, isEntryLine, hp, hentry]⟩
    · exact ⟨some kind, by simp [peek, isEntryLine, hp, hentry, hkind]⟩

theorem stepLine_program {s : LineStepper} {p : Program} {line : Nat} (hp : s.program = some p) :
    (s.stepLine line).2.program = some p := by
  have hleaves := s.stepLine_leaves p line hp
  generalize (s.stepLine line).1 = result, (s.stepLine line).2 = t at hleaves ⊢
  cases hleaves with
  | start | undecoded | gate => exact hp
  | fault => simpa using hp
  | executed => simpa using hp

theorem stepLine_waits {s : LineStepper} {line l : Nat}
    (h : (s.stepLine line).1 = .ok (.waits l)) : l = line ∧ (s.stepLine line).2 = s := by
  cases hp : s.program with
  | none => simp [stepLine, hp] at h
  | some p =>
    have hleaves := s.stepLine_leaves p line hp
    generalize (s.stepLine line).1 = result, (s.stepLine line).2 = t at h hleaves ⊢
    cases hleaves with
    | start | undecoded | fault => simp at h
    | gate => simpa [eq_comm] using h
    | executed =>
      rw [settle_answer] at h
      split at h
      · simp at h
      · split at h <;> simp at h

theorem stepLine_waits_iff {s : LineStepper} {p : Program} {line l : Nat}
    (hp : s.program = some p) :
    (s.stepLine line).1 = .ok (.waits l) ↔ l = line ∧ p.debug.isEntryLine line = false ∧
      s.machine.nextKind = .ok .input ∧ s.input = none := by
  have hleaves := s.stepLine_leaves p line hp
  generalize (s.stepLine line).1 = result, (s.stepLine line).2 = t at hleaves ⊢
  cases hleaves with
  | start hentry => simp [hentry]
  | undecoded hentry f hkind => simp [hkind]
  | gate hentry hkind hinput => simp [hentry, hkind, hinput, eq_comm]
  | fault hentry kind hkind hgate f hrun =>
    simp only [reduceCtorEq, hkind, Except.ok.injEq, false_iff]
    exact fun h => hgate h.2.2
  | executed hentry kind hkind hgate halted hrun =>
    have hno : ¬ (l = line ∧ p.debug.isEntryLine line = false ∧
        s.machine.nextKind = .ok .input ∧ s.input = none) :=
      fun h => hgate ⟨Except.ok.inj (hkind.symm.trans h.2.2.1), h.2.2.2⟩
    refine iff_of_false ?_ hno
    rw [settle_answer]
    split
    · simp
    · cases halted <;> simp

end LineStepper

end Comet
