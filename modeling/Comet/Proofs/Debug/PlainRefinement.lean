import Comet.Proofs.Debug.Events
import Comet.Proofs.Debug.Position
import Comet.Proofs.Machine.PlainSteps

/-! A session without breakpoints against a plain run. A client launches a program and answers every
request for input from an endless supply; the plain run takes the same lines from a console. Between
two instructions the session may pass START lines and wait for input, which the plain run does not
see, so the two are compared after the same number of instructions. -/
namespace Comet

/-- The next instruction, if it is a supervisor call, is not indexed. -/
def Machine.CallsPlainly (m : Machine) : Prop :=
  ∀ i, m.instructionAt m.pr = .ok i → i.mnemonic = .svc → i.x = 0

instance (m : Machine) : Decidable m.CallsPlainly :=
  decidable_of_iff (∀ i ∈ (m.instructionAt m.pr).toOption, i.mnemonic = .svc → i.x = 0) <| by
    cases hi : m.instructionAt m.pr <;> simp [Machine.CallsPlainly, hi, Except.toOption]

theorem Machine.CallsPlainly.reads_iff {m : Machine} (h : m.CallsPlainly) (hm : m.halted = false)
    {kind : InstructionKind} (hkind : m.nextKind = .ok kind) : m.ReadsLine ↔ kind = .input := by
  cases hi : m.instructionAt m.pr with
  | error f =>
    simp [nextKind, hi, Except.map] at hkind
  | ok i =>
    have hannounced : ¬ m.Misannounces i := fun hwrong => hwrong.2.1 (h i hi hwrong.1)
    rw [← (m.nextKind_iff_readsLine_iff i hm hi).mpr hannounced, hkind, Except.ok.injEq]

/-- On a console that gives the line the stepper has, a plain step does what the stepper does. -/
theorem LineStepper.execute_eq_stepOn {t : LineStepper} {inputs : Nat → String} {c : Supply}
    (houtput : t.output = #[])
    (hreads : t.machine.ReadsLine → t.input = some (inputs c.taken)) :
    t.machine.stepOn (Supply.console inputs) c =
      ⟨t.execute.1, t.execute.2.machine,
        { taken := if t.machine.ReadsLine then c.taken + 1 else c.taken,
          written := c.written ++ t.execute.2.output }⟩ := by
  unfold execute Machine.stepOn
  cases hstep : t.machine.step with
  | done m => simp [Machine.ReadsLine, hstep, houtput]
  | fault f m => simp [Machine.ReadsLine, hstep, houtput]
  | writes text m =>
    simp [Machine.ReadsLine, hstep, houtput, Supply.console, LineQueue.console]
  | reads m =>
    have hread : t.machine.ReadsLine := by simp [Machine.ReadsLine, hstep]
    simp [hread, hreads hread, houtput, Supply.console, LineQueue.console]

theorem LineStepper.step_of_execute_fault {t : LineStepper} {f : Fault}
    (h : t.execute.1 = .error f) :
    t.machine.step = .fault f t.execute.2.machine ∧ t.execute.2.output = t.output := by
  unfold execute Machine.stepOn at h ⊢
  cases hstep : t.machine.step with
  | done m | writes text m | reads m => simp [hstep] at h
  | fault f' m =>
    simp only [hstep, Except.error.injEq] at h
    rw [h]
    exact ⟨rfl, rfl⟩

namespace Session

/-- Leaving the line executes an instruction, which does not fault. -/
def Moment.completes (m : Moment) : Bool :=
  m.session.stepper.executes m.line && m.session.stepper.execute.1.toBool

/-- The moments of a session whose client launches a program and answers each request for input with
the next line of the supply, with the number of answers and of instructions up to then. -/
inductive Conducts (assembler : Assembler) (inputs : Nat → String) (readText : ReadText)
    (l : Launch) (s : Session) : Nat → Nat → Progress → Prop
  | launched {m : Moment} (hstart : Starts assembler s (.launch readText l) m) :
      Conducts assembler inputs readText l s 0 0 (.going m)
  | left {answers count : Nat} {m : Moment}
      (h : Conducts assembler inputs readText l s answers count (.going m)) :
      Conducts assembler inputs readText l s answers (count + m.completes.toNat) m.next
  | answered {answers count : Nat} {u : Session} {m : Moment}
      (h : Conducts assembler inputs readText l s answers count (.rest u))
      (hstart : Starts assembler u (.evaluate (inputs answers) .repl) m) :
      Conducts assembler inputs readText l s (answers + 1) count (.going m)

/-- Where a session that runs is after it has left a line. -/
def arrive (s : Session) (line : Nat) (result : Except StepError LineStep) (t : LineStepper) :
    Progress :=
  let s := { s with stepper := t }.passOutput
  match result with
  | .error e => .rest (s.fail line e.message)
  | .ok (.ended _) => .rest s.terminate
  | .ok (.waits l) => .rest (s.wait l .run)
  | .ok (.moved (some l)) => .going ⟨s, l, .run⟩
  | .ok (.moved none) => .rest (s.fail line
      s!"execution reached #{s.stepper.machine.pr.hex}, which maps to no source line")

/-- Without breakpoints a run goes on wherever there is a line to go on from. -/
theorem Moment.next_of_run {m : Moment} (hpending : m.pending = .run)
    (hfree : ∀ line, m.session.hitsBreakpoint line = false) :
    m.next = m.session.arrive m.line (m.session.stepper.stepLine m.line).1
      (m.session.stepper.stepLine m.line).2 := by
  have hstop (line : Nat) : (m.session.afterLine m.line).stopReason? .run line = none := by
    simp [stopReason?, hfree]
  rw [next_of_pending_ne (by simp [hpending]), leave, hpending]
  unfold advance arrive
  simp only
  generalize (m.session.stepper.stepLine m.line).1 = result
  rcases result with e | next | next | line
  · rfl
  · rcases next with _ | next
    · rfl
    · have hnext := hstop next
      unfold afterLine at hnext
      simp only [hnext]
  · rfl
  · rfl

/-- What a run is compared with: the lines there are, the machine from which the plain run starts,
and the session from which the client starts. -/
structure Comparison where
  inputs : Nat → String
  program : Program
  machine : Machine
  session : Session

namespace Comparison

/-- The plain run after some steps, if it goes on after each of them. -/
def plain (d : Comparison) (count : Nat) : Option (Machine × Supply) :=
  d.machine.stepsOn (Supply.console d.inputs) {} count

/-- The plain run to its end, where `fuel` steps are enough. -/
def plainEnd (d : Comparison) (fuel : Nat) : Option (Except Fault Nat × Machine × Supply) :=
  d.machine.runToEnd (Supply.console d.inputs) {} 0 fuel

/-- The session has told of the lines that the plain run has written, each with a line feed. -/
def Tells (d : Comparison) (u : Session) (c : Supply) : Prop :=
  stdoutTexts u.events = stdoutTexts d.session.events ++ c.written.toList.map (· ++ "\n")

section tells

variable {d : Comparison} {u : Session} {c : Supply}

@[simp] theorem tells_fail (line : Nat) (message : String) :
    d.Tells (u.fail line message) c ↔ d.Tells u c := by
  simp [Tells]

@[simp] theorem tells_terminate : d.Tells u.terminate c ↔ d.Tells u c := by
  simp [Tells]

@[simp] theorem tells_wait (line : Nat) (pending : Pending) :
    d.Tells (u.wait line pending) c ↔ d.Tells u c := by
  simp [Tells]

theorem Tells.passed {c' : Supply} {t : LineStepper} (h : d.Tells u c)
    (hwritten : c'.written = c.written ++ t.output) :
    d.Tells ({ u with stepper := t } : Session).passOutput c' := by
  unfold Tells at h ⊢
  rw [passOutput_eq, hwritten]
  simp [h]

end tells

/-- The session is where the plain run is after some steps. -/
structure Abreast (d : Comparison) (count : Nat) (u : Session) (c : Supply) : Prop where
  plain : d.plain count = some (u.stepper.machine, c)
  tells : d.Tells u c
  program : u.stepper.program = some d.program
  halted : u.stepper.machine.halted = false
  output : u.stepper.output = #[]
  free : ∀ line, u.hitsBreakpoint line = false

/-- The stepper has no line, or the one that the next instruction is about to read. -/
def Supplied (d : Comparison) (answers : Nat) (t : LineStepper) (line : Nat) (c : Supply) : Prop :=
  (t.input = none ∧ c.taken = answers) ∨
    (t.input = some (d.inputs c.taken) ∧ c.taken + 1 = answers ∧
      t.machine.nextKind = .ok .input ∧ d.program.debug.isEntryLine line = false)

/-- How a session comes to rest, and where the plain run is then. -/
inductive Rests (d : Comparison) (answers count : Nat) (u : Session) (c : Supply) : Prop
  | waiting (line : Nat) (hstate : u.state = .waiting line .run) (h : d.Abreast count u c)
      (hinput : u.stepper.input = none) (htaken : c.taken = answers)
      (hkind : u.stepper.machine.nextKind = .ok .input)
      (hentry : d.program.debug.isEntryLine line = false)
  | terminated (hstate : u.state = .terminated) (htells : d.Tells u c)
      (hplain : d.plainEnd count = some (.ok count, u.stepper.machine, c))
  | faulted (f : Fault) (line : Nat) (t : Session)
      (hfails : u = t.fail line (StepError.fault f).message) (htells : d.Tells u c)
      (hbefore : (d.plain count).isSome)
      (hplain : d.plainEnd (count + 1) = some (.error f, u.stepper.machine, c))
  | unmappedCall (line : Nat) (t : Session)
      (hfails : u = t.fail line (StepError.unmappedCallTarget u.stepper.machine.pr).message)
      (htells : d.Tells u c) (hplain : d.plain count = some (u.stepper.machine, c))
      (hlast : ∃ k m c', count = k + 1 ∧ d.plain k = some (m, c') ∧ m.nextKind = .ok .call)
      (hunmapped : d.program.debug.subroutineAt u.stepper.machine.pr = none)
  | nowhere (line : Nat) (t : Session)
      (hfails : u = t.fail line
        s!"execution reached #{u.stepper.machine.pr.hex}, which maps to no source line")
      (htells : d.Tells u c) (hplain : d.plain count = some (u.stepper.machine, c))
      (hlast : ∃ k m c', count = k + 1 ∧ d.plain k = some (m, c') ∧ m.nextKind ≠ .ok .call)
      (hunmapped : d.program.debug.lineAt u.stepper.machine.pr = none)

/-- The session keeps up with the plain run. -/
def KeepsUp (d : Comparison) (answers count : Nat) : Progress → Prop
  | .going m => ∃ c, m.pending = .run ∧ d.Abreast count m.session c ∧
      d.Supplied answers m.session.stepper m.line c
  | .rest u => ∃ c, d.Rests answers count u c

section step

variable {d : Comparison} {answers count : Nat} {m : Moment} {c : Supply}

/-- What the stepper does by executing an instruction, the plain run does by one more step. -/
theorem Abreast.execute (h : d.Abreast count m.session c)
    (hsupplied : d.Supplied answers m.session.stepper m.line c)
    (hplainly : m.session.stepper.machine.CallsPlainly) {kind : InstructionKind}
    (hkind : m.session.stepper.machine.nextKind = .ok kind)
    (hgate : ¬ m.session.stepper.Gated kind) :
    ∃ c', m.session.stepper.machine.stepOn (Supply.console d.inputs) c =
        ⟨m.session.stepper.execute.1, m.session.stepper.execute.2.machine, c'⟩ ∧
      c'.taken = answers ∧ c'.written = c.written ++ m.session.stepper.execute.2.output := by
  -- An instruction that reads without having been announced would read here from an empty slot and
  -- in the plain run from the console; plain supervisor calls are announced.
  have hiff := hplainly.reads_iff h.halted hkind
  have hreads (hread : m.session.stepper.machine.ReadsLine) :
      m.session.stepper.input = some (d.inputs c.taken) := by
    rcases hsupplied with ⟨hnone, -⟩ | ⟨hsome, -⟩
    · exact absurd ⟨hiff.mp hread, hnone⟩ hgate
    · exact hsome
  refine ⟨_, LineStepper.execute_eq_stepOn h.output hreads, ?_, rfl⟩
  rcases hsupplied with ⟨hnone, htaken⟩ | ⟨-, htaken, hinput, -⟩
  · have hno : ¬ m.session.stepper.machine.ReadsLine := fun hread =>
      hgate ⟨hiff.mp hread, hnone⟩
    rw [if_neg hno, htaken]
  · have hyes : m.session.stepper.machine.ReadsLine := by
      rw [hkind, Except.ok.injEq] at hinput
      exact hiff.mpr hinput
    rw [if_pos hyes, htaken]

theorem Abreast.passed {count' : Nat} {c' : Supply} {t : LineStepper}
    (h : d.Abreast count m.session c) (hprogram : t.program = some d.program)
    (hhalted : t.machine.halted = false) (hplain : d.plain count' = some (t.machine, c'))
    (hwritten : c'.written = c.written ++ t.output) :
    d.Abreast count' ({ m.session with stepper := t } : Session).passOutput c' := by
  have htells := h.tells.passed hwritten
  rw [passOutput_eq] at htells ⊢
  exact ⟨hplain, htells, hprogram, hhalted, rfl, h.free⟩

theorem Abreast.wait {u : Session} {line : Nat} {pending : Pending} (h : d.Abreast count u c) :
    d.Abreast count (u.wait line pending) c :=
  ⟨h.plain, (tells_wait line pending).mpr h.tells, h.program, h.halted, h.output, h.free⟩

theorem Abreast.executed (h : d.Abreast count m.session c)
    (hsupplied : d.Supplied answers m.session.stepper m.line c)
    (hplainly : m.session.stepper.machine.CallsPlainly) {kind : InstructionKind} {halted : Bool}
    (hkind : m.session.stepper.machine.nextKind = .ok kind)
    (hgate : ¬ m.session.stepper.Gated kind) (hrun : m.session.stepper.execute.1 = .ok halted) :
    d.KeepsUp answers (count + 1) (m.session.arrive m.line
      (m.session.stepper.execute.2.settle d.program.debug m.line kind halted).1
      (m.session.stepper.execute.2.settle d.program.debug m.line kind halted).2) := by
  obtain ⟨c', hstep, htaken, hwritten⟩ := h.execute hsupplied hplainly hkind hgate
  rw [hrun] at hstep
  rw [LineStepper.settle_answer]
  generalize ht : (m.session.stepper.execute.2.settle d.program.debug m.line kind halted).2 = t
  have hmachine : m.session.stepper.execute.2.machine = t.machine := by rw [← ht]; simp
  have hprogram : t.program = some d.program := by rw [← ht]; simpa using h.program
  have hinput : t.input = none := by rw [← ht]; simp
  have houtput : c'.written = c.written ++ t.output := by rw [← ht]; simpa using hwritten
  rw [hmachine] at hstep ⊢
  have hresult : (m.session.stepper.machine.stepOn (Supply.console d.inputs) c).result =
      .ok halted := by rw [hstep]
  have hhalted : t.machine.halted = halted := by
    have hend := Machine.stepOn_halted hresult
    rwa [hstep] at hend
  have hplain (hgoes : halted = false) : d.plain (count + 1) = some (t.machine, c') := by
    have hsteps := Machine.stepsOn_succ_eq_some h.plain (hgoes ▸ hresult)
    rwa [hstep] at hsteps
  have htells := h.tells.passed houtput
  by_cases hunmapped : kind = .call ∧ d.program.debug.subroutineAt t.machine.pr = none
  · rw [if_pos hunmapped]
    have hgoes : halted = false :=
      Machine.stepOn_goes_on_of_kind h.halted hkind (by simp [hunmapped.1]) hresult
    refine ⟨c', .unmappedCall m.line ({ m.session with stepper := t } : Session).passOutput
      ?_ ?_ ?_ ⟨count, _, c, rfl, h.plain, hunmapped.1 ▸ hkind⟩ ?_⟩
    · rw [fail_stepper, passOutput_stepper]
    · exact (tells_fail _ _).mpr htells
    · simpa using hplain hgoes
    · simpa using hunmapped.2
  rw [if_neg hunmapped]
  cases halted with
  | true =>
    refine ⟨c', .terminated rfl (tells_terminate.mpr htells) ?_⟩
    · have hend := Machine.runToEnd_of_ended h.plain hresult
      rw [hstep] at hend
      simpa [plainEnd] using hend
  | false =>
    cases harrival : d.program.debug.arrival kind t.machine.pr with
    | none =>
      have hother : kind ≠ .call := by
        rintro rfl
        exact hunmapped ⟨rfl, by simpa [DebugMap.arrival] using harrival⟩
      refine ⟨c', .nowhere m.line _ rfl ?_ ?_ ⟨count, _, c, rfl, h.plain, ?_⟩ ?_⟩
      · exact (tells_fail _ _).mpr htells
      · simpa using hplain rfl
      · rw [hkind]
        simpa using hother
      · cases kind with
        | call => exact absurd rfl hother
        | ret | input | other => simpa [DebugMap.arrival] using harrival
    | some next =>
      refine ⟨c', rfl, h.passed hprogram hhalted (hplain rfl) houtput, Or.inl ⟨?_, htaken⟩⟩
      simpa using hinput

/-- One more line of the session keeps it up with the plain run. -/
theorem Abreast.next (h : d.Abreast count m.session c) (hpending : m.pending = .run)
    (hsupplied : d.Supplied answers m.session.stepper m.line c)
    (hplainly : m.completes = true → m.session.stepper.machine.CallsPlainly) :
    d.KeepsUp answers (count + m.completes.toNat) m.next := by
  rw [Moment.next_of_run hpending h.free]
  have hsame : c.written = c.written ++ m.session.stepper.output := by rw [h.output]; simp
  have hleaves := m.session.stepper.stepLine_leaves d.program m.line h.program
  generalize (m.session.stepper.stepLine m.line).1 = result,
    (m.session.stepper.stepLine m.line).2 = t at hleaves ⊢
  cases hleaves with
  | start hentry =>
    have hcompletes : m.completes = false := by
      simp [Moment.completes, LineStepper.executes, LineStepper.isEntryLine, h.program, hentry]
    rw [hcompletes]
    refine ⟨c, rfl, h.passed h.program h.halted h.plain hsame, ?_⟩
    rcases hsupplied with ⟨hnone, htaken⟩ | ⟨-, -, -, hno⟩
    · exact Or.inl ⟨by simpa using hnone, htaken⟩
    · rw [hentry] at hno
      cases hno
  | undecoded hentry f hkind =>
    have hcompletes : m.completes = false := by
      simp [Moment.completes, LineStepper.executes, hkind]
    rw [hcompletes]
    have hstep := Machine.step_of_undecoded h.halted hkind
    have hend := Machine.runToEnd_of_fault h.plain (f := f) (by simp [Machine.stepOn, hstep])
    refine ⟨c, .faulted f m.line _ rfl ?_ (by simp [h.plain]) ?_⟩
    · exact (tells_fail _ _).mpr (h.tells.passed hsame)
    · simpa [plainEnd, Machine.stepOn, hstep] using hend
  | gate hentry hkind hinput =>
    have hcompletes : m.completes = false := by
      simp [Moment.completes, LineStepper.executes, h.program, hkind, LineStepper.Gated, hinput]
    rw [hcompletes]
    have habreast := h.passed h.program h.halted h.plain hsame
    have htaken : c.taken = answers := by
      rcases hsupplied with ⟨-, htaken⟩ | ⟨hsome, -⟩
      · exact htaken
      · rw [hinput] at hsome
        cases hsome
    refine ⟨c, .waiting m.line rfl habreast.wait ?_ htaken ?_ hentry⟩
    · simpa using hinput
    · simpa using hkind
  | fault hentry kind hkind hgate f hrun =>
    have hcompletes : m.completes = false := by
      simp [Moment.completes, hrun, Except.toBool]
    rw [hcompletes]
    obtain ⟨hstep, houtput⟩ := LineStepper.step_of_execute_fault hrun
    have hend := Machine.runToEnd_of_fault h.plain (f := f) (by simp [Machine.stepOn, hstep])
    refine ⟨c, .faulted f m.line _ rfl ?_ (by simp [h.plain]) ?_⟩
    · have hwritten : c.written = c.written ++ m.session.stepper.execute.2.output := by
        rw [houtput]
        exact hsame
      exact (tells_fail _ _).mpr (h.tells.passed hwritten)
    · simpa [plainEnd, Machine.stepOn, hstep] using hend
  | executed hentry kind hkind hgate halted hrun =>
    have hcompletes : m.completes = true := by
      simp [Moment.completes, LineStepper.executes, LineStepper.isEntryLine, h.program, hentry,
        hkind, hgate, hrun, Except.toBool]
    rw [hcompletes]
    exact h.executed hsupplied (hplainly hcompletes) hkind hgate hrun

end step

theorem keepsUp_loaded {inputs : Nat → String} {p : Program} {m₀ : Machine}
    {s t : Session} {path : String} (hhalted : m₀.halted = false)
    (ht : ∃ entry, t = { s with
      stepper := { machine := m₀, program := some p, stack := .start entry },
      sourceFile := some path })
    (hfree : ∀ line, s.breakpoints.contains path line = false) :
    (⟨inputs, p, m₀, s⟩ : Comparison).KeepsUp 0 0
      (.going ⟨{ t with state := .running 0 }, 0, .run⟩) := by
  obtain ⟨entry, rfl⟩ := ht
  refine ⟨{}, rfl, ⟨rfl, ?_, rfl, hhalted, rfl, hfree⟩, Or.inl ⟨rfl, rfl⟩⟩
  simp [Tells]

/-- An answer gives the next instruction the line that the plain run takes from its console. -/
theorem Rests.answered {d : Comparison} {answers count : Nat} {u : Session} {c : Supply}
    {assembler : Assembler} {m : Moment} (h : d.Rests answers count u c)
    (hstart : Starts assembler u (.evaluate (d.inputs answers) .repl) m) :
    d.KeepsUp (answers + 1) count (.going m) := by
  cases hstart with
  | input text line pending hwaits =>
    cases h with
    | waiting line' hstate habreast hinput htaken hkind hentry =>
      rw [hstate] at hwaits
      obtain ⟨rfl, rfl⟩ : line' = line ∧ Pending.run = pending := by simpa using hwaits
      refine ⟨c, rfl, ⟨habreast.plain, habreast.tells, habreast.program, habreast.halted,
        habreast.output, habreast.free⟩, Or.inr ⟨?_, by rw [htaken], hkind, hentry⟩⟩
      rw [htaken]
      rfl
    | terminated hstate =>
      rw [hstate] at hwaits
      cases hwaits
    | faulted f _ t hfails | unmappedCall _ t hfails | nowhere _ t hfails =>
      rw [hfails] at hwaits
      cases hwaits

theorem Rests.of_terminated {d : Comparison} {answers count : Nat} {u : Session} {c : Supply}
    (h : d.Rests answers count u c) (hterminated : u.state = .terminated) :
    d.Tells u c ∧ d.plainEnd count = some (.ok count, u.stepper.machine, c) := by
  cases h with
  | terminated _ htells hplain => exact ⟨htells, hplain⟩
  | waiting _ hstate =>
    rw [hterminated] at hstate
    cases hstate
  | faulted _ _ _ hfails | unmappedCall _ _ hfails | nowhere _ _ hfails =>
    rw [hfails] at hterminated
    cases hterminated

end Comparison

section conducts

variable {assembler : Assembler} {inputs : Nat → String} {readText : ReadText} {l : Launch}
  {s u : Session} {answers count : Nat} {m m' : Moment}

/-- A session that keeps up at its start keeps up at all moments, as long as no instruction executed
is an indexed supervisor call. -/
theorem Conducts.keepsUp {p : Program} {m₀ : Machine} {progress : Progress}
    (h : Conducts assembler inputs readText l s answers count progress)
    (hstart : ∀ m, Starts assembler s (.launch readText l) m →
      (⟨inputs, p, m₀, s⟩ : Comparison).KeepsUp 0 0 (.going m))
    (hplainly : ∀ k < count, ∀ m c, (⟨inputs, p, m₀, s⟩ : Comparison).plain k = some (m, c) →
      m.CallsPlainly) :
    (⟨inputs, p, m₀, s⟩ : Comparison).KeepsUp answers count progress := by
  induction h with
  | launched hlaunch => exact hstart _ hlaunch
  | left h ih =>
    obtain ⟨c, hpending, habreast, hsupplied⟩ := ih fun k hk => hplainly k (by omega)
    refine habreast.next hpending hsupplied fun hcompletes => ?_
    exact hplainly _ (by simp [hcompletes]) _ c habreast.plain
  | answered h hanswer ih =>
    obtain ⟨c, hrests⟩ := ih hplainly
    exact hrests.answered hanswer

/-- The requests of the client, one for each answer after the launch, end in the session. -/
def Converses (assembler : Assembler) (inputs : Nat → String) (readText : ReadText) (l : Launch)
    (s : Session) : Nat → Session → Prop
  | 0, u => ∃ fuel, s.after assembler (.launch readText l) fuel = some u
  | answers + 1, u => ∃ t line pending, Converses assembler inputs readText l s answers t ∧
      t.state = .waiting line pending ∧
      ∃ fuel, t.after assembler (.evaluate (inputs answers) .repl) fuel = some u

theorem Conducts.at? (h : Conducts assembler inputs readText l s answers count (.going m)) {k : Nat}
    (hat : m.at? k = some m') :
    ∃ count', Conducts assembler inputs readText l s answers count' (.going m') := by
  induction k generalizing m' with
  | zero =>
    simp only [Moment.at?, Option.some.injEq] at hat
    exact ⟨count, hat ▸ h⟩
  | succ k ih =>
    obtain ⟨m'', hat', hnext⟩ := Moment.at?_succ_eq_some hat
    obtain ⟨count', h'⟩ := ih hat'
    exact ⟨_, hnext ▸ h'.left⟩

theorem Conducts.ends (h : Conducts assembler inputs readText l s answers count (.going m))
    (hends : m.Ends u) :
    ∃ count', Conducts assembler inputs readText l s answers count' (.rest u) := by
  obtain ⟨k, m', hat, hrest⟩ := hends
  obtain ⟨count', h'⟩ := h.at? hat
  exact ⟨_, hrest ▸ h'.left⟩

/-- The moment at which the client's last request has begun. -/
def Begins (assembler : Assembler) (inputs : Nat → String) (readText : ReadText) (l : Launch)
    (s : Session) : Nat → Moment → Prop
  | 0, m => Starts assembler s (.launch readText l) m
  | answers + 1, m => ∃ t, Converses assembler inputs readText l s answers t ∧
      Starts assembler t (.evaluate (inputs answers) .repl) m

theorem converses_of_ends (h : Begins assembler inputs readText l s answers m) (hends : m.Ends u) :
    Converses assembler inputs readText l s answers u := by
  cases answers with
  | zero => exact (after_eq_some_iff h).mpr hends
  | succ answers =>
    obtain ⟨t, ht, hstart⟩ := h
    have hafter := (after_eq_some_iff hstart).mpr hends
    cases hstart with
    | input text line pending hwaits => exact ⟨t, line, pending, ht, hwaits, hafter⟩

/-- The moment leads there within one request. -/
def Moment.Leads (m : Moment) : Progress → Prop
  | .going m' => ∃ k, m.at? k = some m'
  | .rest u => m.Ends u

theorem Conducts.begins {progress : Progress}
    (h : Conducts assembler inputs readText l s answers count progress) :
    ∃ m, Begins assembler inputs readText l s answers m ∧ m.Leads progress := by
  induction h with
  | launched hstart => exact ⟨_, hstart, 0, rfl⟩
  | @left _ _ m' _ ih =>
    obtain ⟨m, hbegins, k, hat⟩ := ih
    refine ⟨m, hbegins, ?_⟩
    cases hnext : m'.next with
    | going m'' => exact ⟨k + 1, by simp [Moment.at?, hat, hnext]⟩
    | rest u => exact ⟨k, m', hat, hnext⟩
  | answered h hstart ih =>
    obtain ⟨m, hbegins, hends⟩ := ih
    exact ⟨_, ⟨_, converses_of_ends hbegins hends, hstart⟩, 0, rfl⟩

/-- The sessions at rest among the moments are those in which the client's requests end. -/
theorem conducts_rest_iff (hstart : ∃ m, Starts assembler s (.launch readText l) m) :
    (∃ count, Conducts assembler inputs readText l s answers count (.rest u)) ↔
      Converses assembler inputs readText l s answers u := by
  constructor
  · rintro ⟨count, h⟩
    obtain ⟨m, hbegins, hends⟩ := h.begins
    exact converses_of_ends hbegins hends
  · intro h
    induction answers generalizing u with
    | zero =>
      obtain ⟨m, hm⟩ := hstart
      exact (Conducts.launched hm).ends ((after_eq_some_iff hm).mp h)
    | succ answers ih =>
      obtain ⟨t, line, pending, ht, hwaits, hafter⟩ := h
      obtain ⟨count, hrest⟩ := ih ht
      have hanswer : Starts assembler t (.evaluate (inputs answers) .repl) _ :=
        .input _ line pending hwaits
      exact (hrest.answered hanswer).ends ((after_eq_some_iff hanswer).mp hafter)

end conducts

/-- A session without breakpoints whose client answers every request for input runs as the program
does on a console with the same lines: it starts, its requests end where its moments do, and it
keeps up with the plain run as long as no instruction executed is an indexed supervisor call. -/
theorem debug_run_refines_plain_run {s : Session} {readText : ReadText} {l : Launch}
    {source : String} (inputs : Nat → String) (hidle : s.state = .idle)
    (hextension : Path.extension? l.program = some sourceExtension)
    (hread : readText l.program = .ok source)
    (hdiagnostics : (assemble source l.assembly).diagnostics = [])
    (hentry : l.stopOnEntry = false)
    (hfree : ∀ line, s.breakpoints.contains l.program line = false) :
    ∃ p m₀, (assemble source l.assembly).program = some p ∧ Machine.load p l.machine = .ok m₀ ∧
      (∃ m, Conducts assemble inputs readText l s 0 0 (.going m)) ∧
      (∀ answers u, (∃ count, Conducts assemble inputs readText l s answers count (.rest u)) ↔
        Converses assemble inputs readText l s answers u) ∧
      ∀ answers count progress, Conducts assemble inputs readText l s answers count progress →
        (∀ k < count, ∀ m c, m₀.stepsOn (Supply.console inputs) {} k = some (m, c) →
          m.CallsPlainly) →
        (⟨inputs, p, m₀, s⟩ : Comparison).KeepsUp answers count progress := by
  obtain ⟨m₀, entry, hload, hlaunch⟩ := launch_assembled s.stepper l.machine hdiagnostics
  have hloads : ∃ t, s.Loads assemble readText l t :=
    ⟨_, hidle, hextension, source, _, hread, hlaunch, rfl⟩
  have hstart : ∃ m, Starts assemble s (.launch readText l) m := by
    obtain ⟨t, ht⟩ := hloads
    refine ⟨_, .launch readText l t ht hentry ?_⟩
    obtain ⟨-, -, -, -, -, -, rfl⟩ := ht
    exact hfree 0
  refine ⟨(layoutOf source l.assembly).program, m₀, by rw [(assemble_eq_program hdiagnostics).2],
    hload, ?_, fun answers u => conducts_rest_iff hstart, ?_⟩
  · obtain ⟨m, hm⟩ := hstart
    exact ⟨m, .launched hm⟩
  · intro answers count progress h hplainly
    refine h.keepsUp (fun m hm => ?_) hplainly
    have hhalted : m₀.halted = false := by rw [Machine.load_eq_ok hload]
    cases hm with
    | launch _ _ t hloads =>
      obtain ⟨m, entry', hload', ht⟩ := hloads.program_of_read hread
      obtain rfl : m = m₀ := Except.ok.inj (hload'.symm.trans hload)
      exact Comparison.keepsUp_loaded hhalted ⟨entry', ht⟩ hfree

/-- A source that reads a line and writes it. -/
def echoSource : String :=
  "MAIN START\n LAD GR1,BUF\n LAD GR2,LEN\n SVC 1\n SVC 2\n RET\nBUF DS 8\nLEN DS 1\n END\n"

def echoLaunch : Launch := { program := "p.cas" }

def echoRead : ReadText := fun _ => .ok echoSource

def echoProgram : Program := (layoutOf echoSource echoLaunch.assembly).program

def echoMachine : Machine := (Machine.load echoProgram echoLaunch.machine).toOption.getD {}

theorem echo_diagnostics : (assemble echoSource echoLaunch.assembly).diagnostics = [] := by
  decide +kernel

theorem echo_loaded {p : Program} {m₀ : Machine}
    (hprogram : (assemble echoSource echoLaunch.assembly).program = some p)
    (hload : Machine.load p echoLaunch.machine = .ok m₀) :
    p = echoProgram ∧ m₀ = echoMachine := by
  rw [(assemble_eq_program echo_diagnostics).2] at hprogram
  have hp : p = echoProgram := (Option.some.inj hprogram).symm
  rw [hp] at hload
  refine ⟨hp, ?_⟩
  rw [echoMachine, hload]
  rfl

theorem echo_converses : ∃ u, Converses assemble (fun _ => "hi") echoRead echoLaunch {} 1 u ∧
    u.state = .terminated ∧ stdoutTexts u.events = ["hi\n"] := by
  have hrun : ((({} : Session).after assemble (.launch echoRead echoLaunch) 8).bind fun t =>
      (t.after assemble (.evaluate "hi" .repl) 8).map fun u =>
        (t.state, u.state, stdoutTexts u.events)) =
      some (.waiting 3 .run, .terminated, ["hi\n"]) := by decide +kernel
  obtain ⟨t, ht, hrun⟩ := Option.bind_eq_some_iff.mp hrun
  obtain ⟨u, hu, hstates⟩ := Option.map_eq_some_iff.mp hrun
  simp only [Prod.mk.injEq] at hstates
  obtain ⟨hwaits, hterminated, htexts⟩ := hstates
  exact ⟨u, ⟨t, 3, .run, ⟨8, ht⟩, hwaits, 8, hu⟩, hterminated, htexts⟩

theorem echoMachine_callsPlainly {k : Nat} {m : Machine} {c : Supply}
    (h : echoMachine.stepsOn (Supply.console fun _ => "hi") {} k = some (m, c)) :
    m.CallsPlainly := by
  have hfive : (∀ k < 5, ((echoMachine.stepsOn (Supply.console fun _ => "hi") {} k).all
      fun r => decide r.1.CallsPlainly) = true) ∧
      (echoMachine.stepsOn (Supply.console fun _ => "hi") {} 5).isNone = true := by
    decide +kernel
  by_cases hk : k < 5
  · have hplainly := hfive.1 k hk
    rw [h] at hplainly
    simpa using hplainly
  · have hended := Option.isNone_iff_eq_none.mp hfive.2
    rw [Machine.stepsOn_eq_none hended (Nat.le_of_not_lt hk)] at h
    cases h

/-- The session waits once, is answered, and ends where the plain run does, having told of the same
line. -/
theorem echo_session_refines_plain_run : ∃ u count c,
    Converses assemble (fun _ => "hi") echoRead echoLaunch {} 1 u ∧ u.state = .terminated ∧
      stdoutTexts u.events = ["hi\n"] ∧ c.written.toList.map (· ++ "\n") = ["hi\n"] ∧
      Machine.load echoProgram echoLaunch.machine = .ok echoMachine ∧
      echoMachine.runToEnd (Supply.console fun _ => "hi") {} 0 count =
        some (.ok count, u.stepper.machine, c) := by
  obtain ⟨u, hends, hterminated, htexts⟩ := echo_converses
  obtain ⟨p, m₀, hprogram, hload, -, hconverses, hkeeps⟩ :=
    @debug_run_refines_plain_run {} echoRead echoLaunch echoSource (fun _ => "hi") rfl
      (by decide +kernel) rfl echo_diagnostics rfl (fun _ => rfl)
  obtain ⟨hp, hm⟩ := echo_loaded hprogram hload
  rw [hp, hm] at hload hkeeps
  obtain ⟨count, hrest⟩ := (hconverses 1 u).mpr hends
  obtain ⟨c, hrests⟩ := hkeeps 1 count _ hrest fun k _ m c h => echoMachine_callsPlainly h
  obtain ⟨htells, hplain⟩ := hrests.of_terminated hterminated
  -- The unifier is kept from running `echoMachine` in the comparison of the two runs.
  simp only [Comparison.plainEnd] at hplain
  have hwritten : stdoutTexts u.events = c.written.toList.map (· ++ "\n") := htells
  rw [htexts] at hwritten
  exact ⟨u, count, c, hends, hterminated, htexts, hwritten.symm, hload, hplain⟩

end Session

end Comet
