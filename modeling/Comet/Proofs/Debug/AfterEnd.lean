import Comet.Assembly.Link
import Comet.Proofs.Debug.Relaunch
import Comet.Proofs.Machine.PlainSteps
import Comet.Proofs.Assembly.Reading

namespace Comet.LineStepper

/-- The stepper has been used without loading a program. -/
inductive WithoutLaunch (s : LineStepper) : LineStepper → Prop
  | refl : WithoutLaunch s s
  | tail {t : LineStepper} (c : Call) (h : WithoutLaunch s t)
      (hc : (t.call c).1 ≠ .launched (.ok [])) : WithoutLaunch s (t.call c).2

/-- A step from the line says that the program has ended, and leaves all that can be seen of the
program as it is. -/
structure Final (t : LineStepper) (line : Nat) : Prop where
  ended : ∃ next, (t.stepLine line).1 = .ok (.ended next)
  machine : (t.stepLine line).2.machine = t.machine
  stack : (t.stepLine line).2.stack = t.stack
  output : (t.stepLine line).2.output = t.output

/-- What a step from a line behind the end comes to, by the instruction that is not executed. -/
inductive Lingers (t : LineStepper) (d : DebugMap) (line : Nat) :
    Except StepError LineStep → LineStepper → Prop
  | again (kind : InstructionKind) (hkind : t.machine.nextKind = .ok kind) (hcall : kind ≠ .call)
      (hgate : ¬ t.Gated kind) :
      Lingers t d line (.ok (.ended (d.lineAt t.machine.pr))) { t with input := none }
  | undecoded (f : Fault) (hkind : t.machine.nextKind = .error f) :
      Lingers t d line (.error (.fault f)) t
  | gate (hkind : t.machine.nextKind = .ok .input) (hinput : t.input = none) :
      Lingers t d line (.ok (.waits line)) t
  | entered (hkind : t.machine.nextKind = .ok .call) (callee : Subroutine)
      (hcallee : d.subroutineAt t.machine.pr = some callee) :
      Lingers t d line (.ok (.ended (some callee.startLine)))
        { t with input := none, stack := t.stack.enter line callee.name }
  | unmapped (hkind : t.machine.nextKind = .ok .call)
      (hcallee : d.subroutineAt t.machine.pr = none) :
      Lingers t d line (.error (.unmappedCallTarget t.machine.pr)) { t with input := none }

section halted

variable {s t : LineStepper} {p : Program} {line : Nat}

theorem execute_of_halted (h : t.machine.halted = true) :
    t.execute = (.ok true, { t with input := none }) := by
  have hstep : t.machine.step = .done t.machine := if_pos h
  simp only [execute, Machine.stepOn, hstep, h]

theorem stepLine_lingers (hp : t.program = some p) (h : t.machine.halted = true)
    (hline : p.debug.isEntryLine line = false) :
    t.Lingers p.debug line (t.stepLine line).1 (t.stepLine line).2 := by
  have hexecute := execute_of_halted h
  have hleaves := t.stepLine_leaves p line hp
  generalize (t.stepLine line).1 = result, (t.stepLine line).2 = u at hleaves ⊢
  cases hleaves with
  | start hentry =>
    rw [hline] at hentry
    cases hentry
  | undecoded _ f hkind => exact .undecoded f hkind
  | gate _ hkind hinput => exact .gate hkind hinput
  | fault _ kind _ _ f hrun =>
    rw [hexecute] at hrun
    cases hrun
  | executed _ kind hkind hgate halted hrun =>
    rw [hexecute] at hrun ⊢
    cases hrun
    cases kind with
    | call =>
      cases hcallee : p.debug.subroutineAt t.machine.pr with
      | none => simpa only [settle, hcallee] using .unmapped hkind hcallee
      | some callee => simpa only [settle, hcallee] using .entered hkind callee hcallee
    | ret => exact .again .ret hkind (by decide) hgate
    | input => exact .again .input hkind (by decide) hgate
    | other => exact .again .other hkind (by decide) hgate

/-- Whatever it is that the step goes by, the machine and the output are left alone. -/
theorem Lingers.left_alone {d : DebugMap} {result : Except StepError LineStep}
    (h : t.Lingers d line result s) :
    s.machine = t.machine ∧ s.output = t.output ∧ s.program = t.program := by
  cases h <;> exact ⟨rfl, rfl, rfl⟩

theorem call_of_halted (hp : t.program = some p) (h : t.machine.halted = true) {c : Call}
    (hc : (t.call c).1 ≠ .launched (.ok [])) :
    (t.call c).2.machine = t.machine ∧ (t.call c).2.program = t.program := by
  cases c with
  | launch compiled options =>
    rcases t.launch_cases compiled options with ⟨_, _, _, -, -, -, -, hloaded⟩ | ⟨-, hsame⟩
    · exact absurd (congrArg (·.1) hloaded) (fun hanswer => hc (congrArg Answer.launched hanswer))
    · exact ⟨congrArg (·.machine) hsame, congrArg (·.program) hsame⟩
  | stepLine line =>
    cases hline : p.debug.isEntryLine line with
    | true =>
      have hpassed : (t.stepLine line).2 = t := by simp [stepLine, hp, hline]
      exact ⟨congrArg (·.machine) hpassed, congrArg (·.program) hpassed⟩
    | false =>
      obtain ⟨hmachine, -, hprogram⟩ := (stepLine_lingers hp h hline).left_alone
      exact ⟨hmachine, hprogram⟩
  | isEntryLine | peek | setInput | takeOutput | stackFrames | stackFrameCount | state =>
    exact ⟨rfl, rfl⟩

/-- A machine that has halted stays as it is until another program is loaded. -/
theorem WithoutLaunch.machine_eq (h : WithoutLaunch s t) (hp : s.program = some p)
    (hhalted : s.machine.halted = true) : t.machine = s.machine ∧ t.program = some p := by
  induction h with
  | refl => exact ⟨rfl, hp⟩
  | @tail t c _ hc ih =>
    obtain ⟨hmachine, hprogram⟩ := ih
    obtain ⟨hmachine', hprogram'⟩ := call_of_halted hprogram (hmachine ▸ hhalted) hc
    exact ⟨hmachine'.trans hmachine, hprogram'.trans hprogram⟩

/-- The step that says so has halted the machine. -/
theorem halted_of_ended {next : Option Nat} (h : (s.stepLine line).1 = .ok (.ended next)) :
    ∃ p, (s.stepLine line).2.program = some p ∧ (s.stepLine line).2.machine.halted = true := by
  cases hp : s.program with
  | none => simp [stepLine, hp] at h
  | some p =>
    refine ⟨p, stepLine_program hp, ?_⟩
    have hleaves := s.stepLine_leaves p line hp
    generalize (s.stepLine line).1 = result, (s.stepLine line).2 = t at h hleaves ⊢
    cases hleaves with
    | start | undecoded | gate | fault => cases h
    | executed _ kind _ _ halted hrun =>
      rw [settle_machine]
      have hhalted : s.execute.2.machine.halted = halted := Machine.stepOn_halted hrun
      rw [hhalted]
      cases halted with
      | true => rfl
      | false =>
        rw [settle_answer] at h
        split at h <;> cases h

theorem Lingers.final_iff (h : t.Lingers p.debug line (t.stepLine line).1 (t.stepLine line).2) :
    t.Final line ↔ ∃ kind, t.machine.nextKind = .ok kind ∧ kind ≠ .call ∧ ¬ t.Gated kind := by
  have hends : t.Final line ↔ (∃ next, (t.stepLine line).1 = .ok (.ended next)) ∧
      (t.stepLine line).2.stack = t.stack := by
    obtain ⟨hmachine, houtput, -⟩ := h.left_alone
    exact ⟨fun hfinal => ⟨hfinal.ended, hfinal.stack⟩,
      fun hfinal => ⟨hfinal.1, hmachine, hfinal.2, houtput⟩⟩
  rw [hends]
  generalize (t.stepLine line).1 = result, (t.stepLine line).2 = u at h ⊢
  cases h with
  | again kind hkind hcall hgate => exact iff_of_true ⟨⟨_, rfl⟩, rfl⟩ ⟨kind, hkind, hcall, hgate⟩
  | undecoded f hkind => simp [hkind]
  | gate hkind hinput => simp [hkind, hinput, Gated]
  | entered hkind callee hcallee =>
    have hstack : t.stack.enter line callee.name ≠ t.stack := by
      intro hsame
      have hdepth := congrArg CallStack.depth hsame
      rw [CallStack.depth_enter] at hdepth
      omega
    simp [hkind, hstack]
  | unmapped hkind hcallee => simp [hkind]

end halted

/-- Once a step has said that the program has ended, the machine stays as it is until another
program is loaded, and a step from a line that is not a START line says so again, with call stack
and output as they are, if and only if the instruction behind the last return can be decoded, is no
call, and is no input that a line is missing for. Otherwise the step fails, asks for a line, or
enters a frame for a call that is not made. -/
theorem end_is_final_iff_harmless_behind {s t : LineStepper} {line : Nat} {next : Option Nat}
    (hended : (s.stepLine line).1 = .ok (.ended next))
    (hused : WithoutLaunch (s.stepLine line).2 t) {l : Nat} (hl : t.isEntryLine l = false) :
    t.machine = (s.stepLine line).2.machine ∧
    (t.Final l ↔ ∃ kind, t.machine.nextKind = .ok kind ∧ kind ≠ .call ∧ ¬ t.Gated kind) ∧
    ∃ p, t.program = some p ∧ t.Lingers p.debug l (t.stepLine l).1 (t.stepLine l).2 := by
  obtain ⟨p, hp, hhalted⟩ := halted_of_ended hended
  obtain ⟨hmachine, hprogram⟩ := hused.machine_eq hp hhalted
  have hline : p.debug.isEntryLine l = false := by simpa only [isEntryLine, hprogram] using hl
  have hlingers := stepLine_lingers hprogram (hmachine ▸ hhalted) hline
  exact ⟨hmachine, hlingers.final_iff, p, hprogram, hlingers⟩

/-- Behind the return of the first block stands the call with which the second one begins. -/
def callBehindSource : String := "MAIN START\n RET\n END\nSUB START\n CALL SUB\n RET\n END\n"

/-- The program of the source has been launched and has ended at its first return, with the call of
the second block behind it. -/
structure EndedBeforeCall (t₀ s : LineStepper) : Prop where
  launched : ({} : LineStepper).launch (assemble callBehindSource {}) {} = (.ok [], t₀)
  step : t₀.stepLine 1 = (.ok (.ended (some 4)), s)
  line : s.isEntryLine 4 = false
  call : s.machine.nextKind = .ok .call
  entered : (s.stepLine 4).2.stack.depth = s.stack.depth + 1

theorem exists_endedBeforeCall : ∃ t₀ s, EndedBeforeCall t₀ s := by
  have hrun : (let launched := ({} : LineStepper).launch (assemble callBehindSource {}) {}
      let s := (launched.2.stepLine 1).2
      (launched.1.toOption, (launched.2.stepLine 1).1.toOption, s.isEntryLine 4,
        s.machine.nextKind.toOption, decide ((s.stepLine 4).2.stack.depth = s.stack.depth + 1))) =
      (some [], some (.ended (some 4)), false, some .call, true) := by
    decide +kernel
  generalize hlaunched : ({} : LineStepper).launch (assemble callBehindSource {}) {} = launched
    at hrun
  obtain ⟨answer, t₀⟩ := launched
  simp only [Prod.mk.injEq, Assembly.toOption_eq_some, decide_eq_true_eq] at hrun
  generalize hstep : t₀.stepLine 1 = step at hrun
  obtain ⟨outcome, s⟩ := step
  obtain ⟨rfl, rfl, hline, hcall, hentered⟩ := hrun
  exact ⟨t₀, s, hlaunched, hstep, hline, hcall, hentered⟩

theorem EndedBeforeCall.ended {t₀ s : LineStepper} (h : EndedBeforeCall t₀ s) :
    (t₀.stepLine 1).1 = .ok (.ended (some 4)) := by rw [h.step]

theorem EndedBeforeCall.used {t₀ s : LineStepper} (h : EndedBeforeCall t₀ s) :
    WithoutLaunch (t₀.stepLine 1).2 s := by
  rw [h.step]
  exact .refl

/-- A step from where the program has ended is not final there. -/
theorem not_final_before_call : ∃ t₀ s, EndedBeforeCall t₀ s ∧ ¬ s.Final 4 := by
  obtain ⟨t₀, s, h⟩ := exists_endedBeforeCall
  obtain ⟨-, hfinal, -⟩ := end_is_final_iff_harmless_behind h.ended h.used h.line
  rw [h.call] at hfinal
  exact ⟨t₀, s, h, by simp [hfinal]⟩

/-- So the end of a program is not always final: a frame is entered behind it. -/
theorem frame_entered_behind_end :
    ¬ ∀ (compiled : Assembled) (options : MachineOptions) (t₀ s t : LineStepper) (line l : Nat)
        (next : Option Nat),
      ({} : LineStepper).launch compiled options = (.ok [], t₀) → WithoutLaunch t₀ s →
      (s.stepLine line).1 = .ok (.ended next) → WithoutLaunch (s.stepLine line).2 t →
      t.isEntryLine l = false → t.Final l := by
  intro hends
  obtain ⟨t₀, s, h⟩ := exists_endedBeforeCall
  have hfinal := hends _ _ t₀ t₀ s 1 4 _ h.launched .refl h.ended h.used h.line
  have hentered := h.entered
  rw [hfinal.stack] at hentered
  omega

end Comet.LineStepper
