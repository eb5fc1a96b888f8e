import Comet.Proofs.Debug.Moment

namespace Comet.Session

/-- The session with more events waiting, which are older than its own. -/
def behind (s : Session) (waiting : Array Event) : Session :=
  { s with events := waiting ++ s.events }

section behind

variable (s : Session) (waiting : Array Event)

@[simp] theorem behind_stepper : (s.behind waiting).stepper = s.stepper := rfl

@[simp] theorem behind_state : (s.behind waiting).state = s.state := rfl

@[simp] theorem behind_hitsBreakpoint (line : Nat) :
    (s.behind waiting).hitsBreakpoint line = s.hitsBreakpoint line := rfl

@[simp] theorem behind_stopReason? (pending : Pending) (line : Nat) :
    (s.behind waiting).stopReason? pending line = s.stopReason? pending line := rfl

@[simp] theorem emit_behind (e : Event) :
    (s.behind waiting).emit e = (s.emit e).behind waiting := by
  simp [behind, emit]

@[simp] theorem terminate_behind : (s.behind waiting).terminate = s.terminate.behind waiting :=
  emit_behind { s with state := .terminated } waiting .terminated

@[simp] theorem stop_behind (line : Nat) (reason : StopReason) :
    (s.behind waiting).stop line reason = (s.stop line reason).behind waiting :=
  emit_behind { s with state := .running line } waiting (.stopped reason none)

@[simp] theorem wait_behind (line : Nat) (pending : Pending) :
    (s.behind waiting).wait line pending = (s.wait line pending).behind waiting :=
  emit_behind { s with state := .waiting line pending } waiting (.output .console inputPrompt)

@[simp] theorem fail_behind (line : Nat) (message : String) :
    (s.behind waiting).fail line message = (s.fail line message).behind waiting := by
  have hstate : { s.behind waiting with state := .failed line } =
      { s with state := .failed line }.behind waiting := rfl
  rw [fail, hstate, emit_behind, emit_behind, fail]

theorem foldl_emit_behind {α : Type} (xs : List α) (f : α → Event) :
    xs.foldl (fun s x => s.emit (f x)) (s.behind waiting) =
      (xs.foldl (fun s x => s.emit (f x)) s).behind waiting := by
  simp [foldl_emit, behind]

theorem afterLine_behind (line : Nat) :
    (s.behind waiting).afterLine line = (s.afterLine line).behind waiting := by
  simp [afterLine, passOutput_eq, behind]

theorem advance_behind (line : Nat) (pending : Pending) :
    (s.behind waiting).advance line pending =
      ((s.advance line pending).1, (s.advance line pending).2.behind waiting) := by
  have hafter := s.afterLine_behind waiting line
  simp only [afterLine, behind_stepper] at hafter
  unfold advance
  simp only [behind_stepper, hafter]
  cases (s.stepper.stepLine line).1 with
  | error e => exact congrArg (none, ·) (fail_behind _ _ _ _)
  | ok step =>
    cases step with
    | ended next => exact congrArg (none, ·) (terminate_behind _ _)
    | waits line => exact congrArg (none, ·) (wait_behind _ _ _ _)
    | moved next =>
      cases next with
      | none => exact congrArg (none, ·) (fail_behind _ _ _ _)
      | some next => rfl

theorem runFrom_behind (line : Nat) (pending : Pending) (fuel : Nat) :
    (s.behind waiting).runFrom line pending fuel =
      (s.runFrom line pending fuel).map (·.behind waiting) := by
  induction fuel generalizing s line with
  | zero => rfl
  | succ fuel ih =>
    rw [runFrom, runFrom, advance_behind]
    obtain ⟨next, t⟩ := s.advance line pending
    cases next with
    | none => rfl
    | some next =>
      simp only [behind_stopReason?]
      cases t.stopReason? pending next with
      | none => exact ih t next
      | some reason => simp

theorem stepOver_behind (line : Nat) (fuel : Nat) :
    (s.behind waiting).stepOver line fuel = (s.stepOver line fuel).map (·.behind waiting) := by
  unfold stepOver
  simp only [behind_stepper, advance_behind]
  cases s.stepper.peek line with
  | error e => simp
  | ok kind =>
    obtain ⟨next, t⟩ := s.advance line .next
    cases kind with
    | none => exact runFrom_behind s waiting line .next fuel
    | some kind =>
      cases kind with
      | ret | input | other => exact runFrom_behind s waiting line .next fuel
      | call =>
        cases next with
        | none => rfl
        | some next =>
          cases hhits : t.hitsBreakpoint next with
          | true => simp [hhits]
          | false => simpa [hhits] using runFrom_behind t waiting next _ fuel

end behind

/-- What a request answers, and what it leaves, do not depend on the events that wait. -/
def Framed {α : Type} (request : Session → Option (α × Session)) : Prop :=
  ∀ s waiting, request (s.behind waiting) =
    (request s).map fun (answer, t) => (answer, t.behind waiting)

theorem resume_framed (pending : Pending) (fuel : Nat) : Framed (·.resume pending fuel) := by
  intro s waiting
  simp only [resume, behind_state]
  cases s.state with
  | idle => rfl
  | terminated | failed => simp
  | running line | waiting line =>
    simp only [stepOver_behind, runFrom_behind]
    cases pending <;> simp [Function.comp_def]

theorem stepOut_framed (fuel : Nat) : Framed (·.stepOut fuel) := fun s waiting =>
  resume_framed (.stepOut (s.stepper.stack.depth - 1)) fuel s waiting

theorem begin_framed (l : Launch) (fuel : Nat) : Framed (·.begin l fuel) := by
  intro s waiting
  let t : Session := { s with sourceFile := some l.program }
  have hrun := resume_framed .run fuel { t with state := .running 0 } waiting
  have hloaded : { s.behind waiting with sourceFile := some l.program } = t.behind waiting := rfl
  simp only [begin, hloaded, behind_hitsBreakpoint, stop_behind]
  split
  · rfl
  · split
    · rfl
    · exact hrun

theorem launch_framed (assembler : Assembler) (readText : ReadText) (l : Launch) (fuel : Nat) :
    Framed (·.launch assembler readText l fuel) := by
  intro s waiting
  simp only [launch, behind_state, behind_stepper, terminate_behind]
  split
  · rfl
  · split
    · rfl
    · cases readText l.program with
      | error e => rfl
      | ok source =>
        simp only
        generalize s.stepper.launch (assembler source l.assembly) l.machine = launched
        obtain ⟨result, stepper⟩ := launched
        let loaded : Session := { s with stepper }
        rcases result with e | (_ | ⟨d, ds⟩)
        · exact congrArg (fun t => some (Except.error (Error.launch e), t))
            (loaded.terminate_behind waiting)
        · exact begin_framed l fuel loaded waiting
        · have hreports := loaded.foldl_emit_behind waiting (d :: ds)
            fun d => .output .stderr (d.display ++ "\n")
          have hends := congrArg terminate hreports
          rw [terminate_behind] at hends
          exact congrArg (fun t => some (Except.ok (), t)) hends

theorem evaluate_framed (expression : String) (context : EvaluateContext) (fuel : Nat) :
    Framed (·.evaluate expression context fuel) := by
  intro s waiting
  simp only [evaluate, behind_state, behind_stepper]
  cases s.state with
  | idle => rfl
  | running | terminated | failed =>
    cases Variable.find? s.stepper.machine expression <;> rfl
  | waiting line pending =>
    cases context with
    | hover | other => cases Variable.find? s.stepper.machine expression <;> rfl
    | repl =>
      have hresume := resume_framed pending fuel
        { s with stepper := s.stepper.setInput expression, state := .running line } waiting
      have hgiven : { s.behind waiting with
          stepper := s.stepper.setInput expression, state := .running line } =
          { s with stepper := s.stepper.setInput expression, state := .running line }.behind
            waiting := rfl
      simp only [hgiven, hresume, Option.map_map, Function.comp_def]

end Comet.Session
