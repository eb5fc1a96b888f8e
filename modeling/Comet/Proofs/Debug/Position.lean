import Comet.Proofs.Assembly.Linked
import Comet.Proofs.Debug.Request

namespace Comet

section loaded

open Session

variable {s t u : Session} {readText : ReadText} {l : Launch} {source : String}

/-- Whatever is loaded is the program of a source in which nothing is wrong, at its entry. -/
theorem Session.Loads.program (h : s.Loads assemble readText l t) :
    ∃ source m entry, readText l.program = .ok source ∧
      (assemble source l.assembly).diagnostics = [] ∧
      Machine.load (layoutOf source l.assembly).program l.machine = .ok m ∧
      t = { s with
        stepper := { machine := m, program := some (layoutOf source l.assembly).program,
                     stack := .start entry },
        sourceFile := some l.program } := by
  obtain ⟨-, -, source, stepper, hread, hstepper, rfl⟩ := h
  rcases s.stepper.launch_cases (assemble source l.assembly) l.machine with
    ⟨p, m, entry, hdiagnostics, -, -, -, -⟩ | ⟨hfailed, -⟩
  · obtain ⟨m, entry, hload, hlaunch⟩ := launch_assembled s.stepper l.machine hdiagnostics
    rw [hlaunch] at hstepper
    simp only [Prod.mk.injEq, true_and] at hstepper
    exact ⟨source, m, entry, hread, hdiagnostics, hload, by rw [← hstepper]⟩
  · rw [hstepper] at hfailed
    exact absurd rfl hfailed

theorem Session.loads_of_launch {fuel : Nat} (hread : readText l.program = .ok source)
    (hdiagnostics : (assemble source l.assembly).diagnostics = [])
    (h : s.launch assemble readText l fuel = some (.ok (), u)) :
    ∃ t, s.Loads assemble readText l t := by
  rcases Session.launch_cases h with hloads | -
  · exact hloads
  obtain ⟨m, entry, -, hlaunch⟩ := launch_assembled s.stepper l.machine hdiagnostics
  unfold Session.launch at h
  by_cases hidle : s.state ≠ .idle
  · simp [if_pos hidle] at h
  by_cases hextension : Path.extension? l.program ≠ some sourceExtension
  · simp [if_neg hidle, if_pos hextension] at h
  exact ⟨_, by simpa using hidle, by simpa using hextension, source, _, hread, hlaunch, rfl⟩

theorem Session.Loads.program_of_read (h : s.Loads assemble readText l t)
    (hread : readText l.program = .ok source) :
    ∃ m entry, Machine.load (layoutOf source l.assembly).program l.machine = .ok m ∧
      t = { s with
        stepper := { machine := m, program := some (layoutOf source l.assembly).program,
                     stack := .start entry },
        sourceFile := some l.program } := by
  obtain ⟨source', m, entry, hread', -, hload, ht⟩ := h.program
  obtain rfl : source' = source := Except.ok.inj (hread'.symm.trans hread)
  exact ⟨m, entry, hload, ht⟩

theorem Session.Loads.at_entry (h : s.Loads assemble readText l t)
    (hread : readText l.program = .ok source) :
    t.stepper.program = some (layoutOf source l.assembly).program ∧
      t.stepper.machine.pr = (layoutOf source l.assembly).program.entry := by
  obtain ⟨m, entry, hload, rfl⟩ := h.program_of_read hread
  refine ⟨rfl, ?_⟩
  rw [Machine.load_eq_ok hload]

end loaded

namespace Assembly.Layout

/-- The source has its first START on line 0, and right below each START is the first instruction
of the block to be executed. -/
structure Aligned (s : Layout) : Prop where
  first : s.blocks.head?.map (·.startLine) = some 0
  below : ∀ b ∈ s.blocks, s.program.debug.lineAt b.entry = some (b.startLine + 1)

instance (s : Layout) : Decidable s.Aligned :=
  decidable_of_iff (_ ∧ _) ⟨fun h => ⟨h.1, h.2⟩, fun h => ⟨h.first, h.below⟩⟩

/-- The stepper is at the START line of the block at whose entry its machine is, or at no START line
but at that of the next instruction. -/
structure InStep (s : Layout) (t : LineStepper) (line : Nat) : Prop where
  program : t.program = some s.program
  position : (∃ b ∈ s.blocks, b.startLine = line ∧ b.entry = t.machine.pr) ∨
    ((∀ b ∈ s.blocks, b.startLine ≠ line) ∧ s.program.debug.lineAt t.machine.pr = some line)

variable {s : Layout} {n : Nat}

theorem Sound.inStep_of_lineAt (hs : s.Sound n) {t : LineStepper} {line : Nat}
    (hprogram : t.program = some s.program)
    (hline : s.program.debug.lineAt t.machine.pr = some line) : s.InStep t line :=
  ⟨hprogram, Or.inr ⟨hs.startLine_ne_lineAt hline, hline⟩⟩

/-- Leaving a line keeps the two in step: below a START line by the alignment, at the callee of a
call by the subroutine map, and everywhere else by the line map. -/
theorem Aligned.inStep_moved (ha : s.Aligned) (hs : s.Sound n) {t : LineStepper} {line next : Nat}
    (h : s.InStep t line) (hmoved : (t.stepLine line).1 = .ok (.moved (some next))) :
    s.InStep (t.stepLine line).2 next := by
  have hprogram : (t.stepLine line).2.program = some s.program :=
    LineStepper.stepLine_program h.program
  rcases LineStepper.stepLine_moved h.program hmoved with
    ⟨hentry, rfl, hsame⟩ | ⟨kind, -, -, -, -, -, harrival⟩
  · rw [hsame]
    rcases h.position with ⟨b, hb, rfl, hpr⟩ | ⟨hno, -⟩
    · refine hs.inStep_of_lineAt h.program ?_
      rw [← hpr]
      exact ha.below b hb
    · obtain ⟨b, hb, hstart⟩ := isEntryLine_eq_true hentry
      exact absurd hstart (hno b hb)
  · cases kind with
    | call =>
      obtain ⟨callee, hcallee, rfl⟩ := Option.map_eq_some_iff.mp harrival
      obtain ⟨b, hb, hentry, hstart⟩ :=
        subroutineMap_get?_eq_some (DebugMap.get?_of_subroutineAt hcallee)
      exact ⟨hprogram, Or.inl ⟨b, hb, hstart, hentry⟩⟩
    | ret | input | other => exact hs.inStep_of_lineAt hprogram harrival

theorem Aligned.kept_inStep (ha : s.Aligned) (hs : s.Sound n) : Session.Kept s.InStep where
  moved := ha.inStep_moved hs
  input _ h := ⟨h.program, h.position⟩
  output h := ⟨h.program, h.position⟩

theorem Aligned.inStep_entry (ha : s.Aligned) {t : LineStepper}
    (hprogram : t.program = some s.program) (hpr : t.machine.pr = s.program.entry) :
    s.InStep t 0 := by
  obtain ⟨b, hhead, hstart⟩ := Option.map_eq_some_iff.mp ha.first
  refine ⟨hprogram, Or.inl ⟨b, List.mem_of_head? hhead, hstart, ?_⟩⟩
  rw [hpr, Layout.program, hhead]
  rfl

end Assembly.Layout

namespace Session

/-- After the launch of an aligned source the line and the program counter stay in step, whatever
is requested of the session. -/
theorem line_and_program_counter_in_step {s₀ s₁ s : Session} {readText : ReadText} {l : Launch}
    {source : String} {fuel : Nat} (hread : readText l.program = .ok source)
    (hdiagnostics : (assemble source l.assembly).diagnostics = [])
    (haligned : (layoutOf source l.assembly).Aligned)
    (hlaunch : s₀.launch assemble readText l fuel = some (.ok (), s₁))
    (hreaches : Reaches assemble s₁ s) :
    ∀ line, (s.state = .running line ∨ ∃ pending, s.state = .waiting line pending) →
      (∃ b ∈ (layoutOf source l.assembly).blocks,
        b.startLine = line ∧ b.entry = s.stepper.machine.pr) ∨
      ((∀ b ∈ (layoutOf source l.assembly).blocks, b.startLine ≠ line) ∧
        (layoutOf source l.assembly).program.debug.lineAt s.stepper.machine.pr = some line) := by
  have hsound := layoutOf_sound hdiagnostics
  have hkept := haligned.kept_inStep hsound
  obtain ⟨t, hloads⟩ := loads_of_launch hread hdiagnostics hlaunch
  obtain ⟨hprogram, hpr⟩ := hloads.at_entry hread
  have hloaded := haligned.inStep_entry hprogram hpr
  have hlaunched : s₁.state ≠ .idle ∧
      ∀ line, s₁.standing? = some line → (layoutOf source l.assembly).InStep s₁.stepper line := by
    rcases (launched_cases hloads hlaunch).2 with ⟨reason, -, rfl⟩ | ⟨m, hstart, -, hends⟩
    · refine ⟨State.noConfusion, fun line hline => ?_⟩
      simp only [stop_standing?, Option.some.injEq] at hline
      exact hline ▸ hloaded
    · refine ⟨hends.state_ne_idle, fun line hline => hkept.ends ?_ hends hline⟩
      cases hstart with
      | launch _ _ t' hloads' =>
        obtain ⟨hprogram', hpr'⟩ := hloads'.at_entry hread
        exact haligned.inStep_entry hprogram' hpr'
  have hstanding := (hkept.reaches_of_state_ne_idle hlaunched.1 hlaunched.2 hreaches).2
  intro line hstate
  refine (hstanding line ?_).position
  rcases hstate with hstate | ⟨pending, hstate⟩ <;> rw [standing?, hstate]

/-- A source of two blocks, the first of which calls the second. -/
def callSource : String := "MAIN START\n CALL SUB\n RET\n END\nSUB START\n RET\n END\n"

def callLaunch : Launch := { program := "p.cas", stopOnEntry := true }

def callSession : Session :=
  ((({} : Session).launch assemble (fun _ => .ok callSource) callLaunch 0).map (·.2)).getD {}

/-- Two steps into the source, the session is at the START line of the callee. -/
theorem calling_source_in_step : ∃ s, Reaches assemble callSession s ∧ s.state = .running 4 ∧
    ((∃ b ∈ (layoutOf callSource {}).blocks,
        b.startLine = 4 ∧ b.entry = s.stepper.machine.pr) ∨
      ((∀ b ∈ (layoutOf callSource {}).blocks, b.startLine ≠ 4) ∧
        (layoutOf callSource {}).program.debug.lineAt s.stepper.machine.pr = some 4)) := by
  have haccepted : (({} : Session).launch assemble (fun _ => .ok callSource) callLaunch 0).map
      (·.1.toBool) = some true := by decide +kernel
  obtain ⟨⟨result, u⟩, hlaunch, hok⟩ := Option.map_eq_some_iff.mp haccepted
  have hlaunched : ({} : Session).launch assemble (fun _ => .ok callSource) callLaunch 0 =
      some (.ok (), callSession) := by
    cases result with
    | error e => cases hok
    | ok _ => rw [callSession, hlaunch]; rfl
  have hsteps : (callSession.afterAll assemble [(.stepIn, 1), (.stepIn, 1)]).map (·.state) =
      some (.running 4) := by decide +kernel
  obtain ⟨s, hs, hstate⟩ := Option.map_eq_some_iff.mp hsteps
  have hreaches := reaches_of_afterAll hs
  have hread : (fun _ => .ok callSource : ReadText) callLaunch.program = .ok callSource := rfl
  exact ⟨s, hreaches, hstate, line_and_program_counter_in_step hread (by decide +kernel)
    (by decide +kernel) hlaunched hreaches 4 (Or.inl hstate)⟩

end Session

end Comet
