import Comet.Proofs.Debug.Events
import Comet.Proofs.Debug.Request

namespace Comet

namespace LineStepper

variable {t : LineStepper} {line : Nat}

/-- Leaving the line executes a call. -/
def calls (t : LineStepper) (line : Nat) : Bool :=
  !t.isEntryLine line && match t.machine.nextKind with
    | .ok .call => true
    | _ => false

theorem program_isSome_of_moved {next : Option Nat}
    (h : (t.stepLine line).1 = .ok (.moved next)) : t.program.isSome = true := by
  unfold stepLine at h
  cases hp : t.program with
  | none => simp [hp] at h
  | some p => rfl

theorem peek_eq_call_iff (hp : t.program.isSome = true) :
    t.peek line = .ok (some .call) ↔ t.calls line = true := by
  obtain ⟨p, hp⟩ := Option.isSome_iff_exists.mp hp
  unfold peek calls
  cases hentry : t.isEntryLine line with
  | true => simp [hp]
  | false =>
    rcases t.machine.nextKind with f | kind
    · simp [hp]
    · cases kind <;> simp [hp]

/-- An instruction that cannot be looked at cannot be executed either. -/
theorem stepLine_of_peek_error {e : StepError} (h : t.peek line = .error e) :
    t.stepLine line = (.error e, t) := by
  unfold peek at h
  unfold stepLine
  cases hp : t.program with
  | none =>
    rw [hp] at h
    simpa using h
  | some p =>
    have hsome : isEntryLine t line = p.debug.isEntryLine line := by rw [isEntryLine, hp]
    rw [hp, hsome] at h
    cases hentry : p.debug.isEntryLine line with
    | true => simp [hentry] at h
    | false =>
      rcases hkind : t.machine.nextKind with f | kind
      · simpa [hentry, hkind] using h
      · simp [hentry, hkind] at h

theorem settle_depth_pos (d : DebugMap) (kind : InstructionKind) (halted : Bool)
    (hdepth : 0 < t.stack.depth) : 0 < (t.settle d line kind halted).2.stack.depth := by
  cases kind with
  | call =>
    unfold settle
    simp only
    split
    · exact hdepth
    · simp
  | ret =>
    simp only [settle]
    split
    · exact hdepth
    · rw [CallStack.depth_leave]
      split <;> omega
  | input | other => exact hdepth

/-- The outermost frame is never left. -/
theorem stepLine_depth_pos (hdepth : 0 < t.stack.depth) :
    0 < (t.stepLine line).2.stack.depth := by
  cases hp : t.program with
  | none => simpa [stepLine, hp] using hdepth
  | some p =>
    have hleaves := t.stepLine_leaves p line hp
    generalize (t.stepLine line).1 = result, (t.stepLine line).2 = t' at hleaves ⊢
    cases hleaves with
    | start | undecoded | gate | fault => exact hdepth
    | executed => exact settle_depth_pos _ _ _ hdepth

/-- A call adds the frame of the callee. -/
theorem stepLine_depth_of_calls (hcalls : t.calls line = true) {next : Nat}
    (h : (t.stepLine line).1 = .ok (.moved (some next))) :
    (t.stepLine line).2.stack.depth = t.stack.depth + 1 := by
  obtain ⟨p, hp⟩ := Option.isSome_iff_exists.mp (program_isSome_of_moved h)
  have hentry' : t.isEntryLine line = p.debug.isEntryLine line := by rw [isEntryLine, hp]
  simp only [calls, hentry', Bool.and_eq_true, Bool.not_eq_true'] at hcalls
  rcases stepLine_moved hp h with ⟨hentry, -, -⟩ | ⟨kind, -, hkind, -, -, hsettled, harrival⟩
  · simp [hentry] at hcalls
  · rw [hkind] at hcalls
    cases kind with
    | ret | input | other => simp at hcalls
    | call =>
      obtain ⟨callee, hcallee, -⟩ := Option.map_eq_some_iff.mp harrival
      rw [hsettled, settle_machine] at hcallee
      rw [hsettled]
      simp only [settle, hcallee, CallStack.depth_enter]
      rfl

end LineStepper

namespace Session

def depth (s : Session) : Nat := s.stepper.stack.depth

theorem afterLine_depth (s : Session) (line : Nat) :
    (s.afterLine line).depth = (s.stepper.stepLine line).2.stack.depth := by
  rw [depth, afterLine_stepper]

/-- The request is about to execute a call. -/
def calls (s : Session) : Bool := s.standing?.any s.stepper.calls

/-- Stops at a breakpoint, and otherwise where something has been reached. -/
def stopsAt (s : Session) (line : Nat) (reached : Bool) : Option StopReason :=
  if s.hitsBreakpoint line then some .breakpoint
  else if reached then some .step
  else none

/-- The state without what is pending in it: its kind, and its line. -/
def State.unpending : State → State
  | .waiting line _ => .waiting line .run
  | state => state

theorem currentLine_congr {s t : Session} (h : s.state.unpending = t.state.unpending) :
    s.currentLine = t.currentLine := by
  unfold currentLine
  cases hs : s.state <;> cases ht : t.state <;> simp_all [State.unpending]

/-- Why a request that was made in the session `s₀` stops in the session `s` before a line. A step
over something else than a call is a plain step, like a step in, and stops anywhere. -/
def goal? (s₀ : Session) (r : Request) (s : Session) (line : Nat) : Option StopReason :=
  match r with
  | .run => s.stopsAt line false
  | .stepOut => s.stopsAt line (s.depth + 1 = s₀.depth)
  | .next => if s₀.calls then s.stopsAt line (s.depth = s₀.depth) else some .step
  | _ => some .step

theorem stopReason?_run (s : Session) (line : Nat) :
    s.stopReason? .run line = s.stopsAt line false := rfl

theorem stopReason?_stepOut (s : Session) (depth line : Nat) :
    s.stopReason? (.stepOut depth) line = s.stopsAt line (s.depth = depth) := by
  simp only [stopReason?, stopsAt, decide_eq_true_eq]
  rfl

theorem goal?_congr {s₀ s t : Session} {r : Request} {line : Nat} (hstepper : t.stepper = s.stepper)
    (hbreakpoints : t.breakpoints = s.breakpoints) (hfile : t.sourceFile = s.sourceFile) :
    s₀.goal? r t line = s₀.goal? r s line := by
  have hhits : t.hitsBreakpoint line = s.hitsBreakpoint line := by
    rw [hitsBreakpoint, hitsBreakpoint, hbreakpoints, hfile]
  have hdepth : t.depth = s.depth := by rw [depth, depth, hstepper]
  cases r <;> simp only [goal?, stopsAt, hhits, hdepth]

/-- Nobody who looks at the machine, the frames, the state or the program's output can tell the
sessions apart. -/
structure Agrees (u v : Session) : Prop where
  machine : u.stepper.machine = v.stepper.machine
  stack : u.stepper.stack = v.stepper.stack
  state : u.state.unpending = v.state.unpending
  line : u.currentLine = v.currentLine
  output : stdoutTexts u.events = stdoutTexts v.events

/-- The request has ended in the session `u` as it has in the session `t`: if it has stopped at a
line, then for the reason that its aim gives. -/
structure EndsAt (s₀ : Session) (r : Request) (u t : Session) : Prop where
  agrees : u.Agrees t
  reason : ∀ line, u.state = .running line →
    ∃ reason, s₀.goal? r t line = some reason ∧ u.events.back? = some (.stopped reason none)

/-- The requests that make a session go on from its line. -/
def Request.Steps (r : Request) : Prop := r = .run ∨ r = .stepIn ∨ r = .stepOut ∨ r = .next

/-- What is pending at the moment is all that is left of the request `r`, made in the session
`s₀`. -/
inductive Serves (s₀ : Session) : Request → Moment → Prop
  | run {s : Session} {line : Nat} : Serves s₀ .run ⟨s, line, .run⟩
  | stepIn {s : Session} {line : Nat} : Serves s₀ .stepIn ⟨s, line, .stepIn⟩
  | stepOut {s : Session} {line : Nat} (hdepth : 0 < s₀.depth) :
      Serves s₀ .stepOut ⟨s, line, .stepOut (s₀.depth - 1)⟩
  | next {s : Session} {line : Nat} (hcalls : s.stepper.calls line = s₀.calls)
      (hdepth : s.depth = s₀.depth) : Serves s₀ .next ⟨s, line, .next⟩
  | entered {s : Session} {line : Nat} (hcalls : s₀.calls = true) :
      Serves s₀ .next ⟨s, line, .stepOut s₀.depth⟩

/-- A line has been left behind for another, and the request is at its aim, or nearer to it. -/
inductive Nears (s₀ : Session) (r : Request) (m : Moment) (line : Nat) : Prop
  | there (reason : StopReason)
      (hgoal : s₀.goal? r (m.session.afterLine m.line) line = some reason)
      (hnext : m.next = .rest ((m.session.afterLine m.line).stop line reason))
  | nearer (pending : Pending) (hgoal : s₀.goal? r (m.session.afterLine m.line) line = none)
      (hnext : m.next = .going ⟨m.session.afterLine m.line, line, pending⟩)
      (hserves : Serves s₀ r ⟨m.session.afterLine m.line, line, pending⟩)

section serves

variable {s₀ s : Session} {r : Request} {m : Moment} {line next : Nat}

/-- Where what is pending stops for the reasons of the aim, the aim is all that matters. -/
theorem nears_of_leave (hleave : m.next = m.leave)
    (hmoved : (m.session.stepper.stepLine m.line).1 = .ok (.moved (some next)))
    (hgoal : s₀.goal? r (m.session.afterLine m.line) next =
      (m.session.afterLine m.line).stopReason? m.pending next)
    (hserves : s₀.goal? r (m.session.afterLine m.line) next = none →
      Serves s₀ r ⟨m.session.afterLine m.line, next, m.pending⟩) : Nears s₀ r m next := by
  rw [Moment.leave_of_moved hmoved, ← hgoal] at hleave
  cases haim : s₀.goal? r (m.session.afterLine m.line) next with
  | some reason => exact .there reason haim (by rw [hleave, haim])
  | none => exact .nearer m.pending haim (by rw [hleave, haim]) (hserves haim)

theorem nears_of_run (hmoved : (s.stepper.stepLine line).1 = .ok (.moved (some next))) :
    Nears s₀ .run ⟨s, line, .run⟩ next :=
  nears_of_leave (Moment.next_of_pending_ne (by simp)) hmoved (stopReason?_run _ _).symm
    fun _ => .run

theorem nears_of_stepIn (hmoved : (s.stepper.stepLine line).1 = .ok (.moved (some next))) :
    Nears s₀ .stepIn ⟨s, line, .stepIn⟩ next :=
  nears_of_leave (Moment.next_of_pending_ne (by simp)) hmoved rfl fun _ => .stepIn

theorem nears_of_stepOut (hmoved : (s.stepper.stepLine line).1 = .ok (.moved (some next)))
    (hdepth : 0 < s₀.depth) :
    Nears s₀ .stepOut ⟨s, line, .stepOut (s₀.depth - 1)⟩ next := by
  have hiff : (s.afterLine line).depth + 1 = s₀.depth ↔
      (s.afterLine line).depth = s₀.depth - 1 := by omega
  refine nears_of_leave (Moment.next_of_pending_ne (by simp)) hmoved ?_ fun _ => .stepOut hdepth
  simp only [stopReason?_stepOut, goal?, hiff]

/-- The callee of a step over has been entered, and is left as by a step out. -/
theorem nears_of_entered (hmoved : (s.stepper.stepLine line).1 = .ok (.moved (some next)))
    (hcalls : s₀.calls = true) : Nears s₀ .next ⟨s, line, .stepOut s₀.depth⟩ next := by
  refine nears_of_leave (Moment.next_of_pending_ne (by simp)) hmoved ?_ fun _ => .entered hcalls
  simp only [stopReason?_stepOut, goal?, hcalls, if_true]

/-- A call adds a frame, so a step over is not at its aim yet unless there is a breakpoint. -/
theorem nears_of_next_call (hmoved : (s.stepper.stepLine line).1 = .ok (.moved (some next)))
    (hcalls : s₀.calls = true) (hcalls' : s.stepper.calls line = true)
    (hdepth : s.depth = s₀.depth) : Nears s₀ .next ⟨s, line, .next⟩ next := by
  have hdeeper : (s.afterLine line).depth ≠ s₀.depth := by
    have hentered := LineStepper.stepLine_depth_of_calls hcalls' hmoved
    rw [afterLine_depth, hentered, ← hdepth]
    exact Nat.succ_ne_self _
  have hpeek : s.stepper.peek line = .ok (some .call) :=
    (LineStepper.peek_eq_call_iff (LineStepper.program_isSome_of_moved hmoved)).mpr hcalls'
  have hnext : (Moment.mk s line .next).next = Moment.enter ⟨s, line, .next⟩ := by
    simp only [Moment.next, hpeek]
  have haim : s₀.goal? .next (s.afterLine line) next =
      if s.hitsBreakpoint next then some .breakpoint else none := by
    simp only [goal?, hcalls, if_true, stopsAt, hdeeper, decide_false, Bool.false_eq_true,
      if_false, afterLine_hitsBreakpoint]
  rw [Moment.enter_of_moved hmoved] at hnext
  cases hhits : s.hitsBreakpoint next with
  | true =>
    simp only [hhits, if_true] at hnext haim
    exact .there .breakpoint haim hnext
  | false =>
    simp only [hhits, Bool.false_eq_true, if_false] at hnext haim
    refine .nearer _ haim hnext ?_
    have hsame : s.stepper.stack.depth = s₀.depth := hdepth
    rw [hsame]
    exact .entered hcalls

/-- Without a call, a step over leaves one line, as a step in does. -/
theorem nears_of_next_plain (hmoved : (s.stepper.stepLine line).1 = .ok (.moved (some next)))
    (hcalls : s₀.calls = false) (hcalls' : s.stepper.calls line = false) :
    Nears s₀ .next ⟨s, line, .next⟩ next := by
  obtain ⟨kind, hpeek⟩ := LineStepper.peek_of_moved hmoved
  have hkind : kind ≠ some .call := by
    rintro rfl
    rw [LineStepper.peek_eq_call_iff (LineStepper.program_isSome_of_moved hmoved), hcalls'] at hpeek
    cases hpeek
  have haim : s₀.goal? .next (s.afterLine line) next = some .step := by simp [goal?, hcalls]
  refine nears_of_leave (Moment.next_of_peek_ne hpeek hkind) hmoved haim fun hnone => ?_
  rw [haim] at hnone
  cases hnone

/-- A line that has been left behind brings the request to its aim, or nearer to it. -/
theorem Serves.nears (h : Serves s₀ r m)
    (hmoved : (m.session.stepper.stepLine m.line).1 = .ok (.moved (some next))) :
    Nears s₀ r m next := by
  cases h with
  | run => exact nears_of_run hmoved
  | stepIn => exact nears_of_stepIn hmoved
  | stepOut hdepth => exact nears_of_stepOut hmoved hdepth
  | next hcalls hdepth =>
    cases hcall : s₀.calls with
    | true => exact nears_of_next_call hmoved hcall (hcalls.trans hcall) hdepth
    | false => exact nears_of_next_plain hmoved hcall (hcalls.trans hcall)
  | entered hcalls => exact nears_of_entered hmoved hcalls

theorem Starts.serves {assembler : Assembler} (h : Starts assembler s₀ r m) (hr : r.Steps)
    (hdepth : 0 < s₀.depth) : Serves s₀ r m := by
  cases h with
  | run line hline => exact .run
  | stepIn line hline => exact .stepIn
  | stepOut line hline => exact .stepOut hdepth
  | next line hline => exact .next (by rw [calls, hline]; rfl) rfl
  | launch | input => simp [Request.Steps] at hr

theorem Request.Steps.starts (hr : r.Steps) (assembler : Assembler)
    (hline : s₀.standing? = some line) :
    ∃ m, Starts assembler s₀ r m ∧ m.session = s₀ ∧ m.line = line := by
  rcases hr with rfl | rfl | rfl | rfl
  · exact ⟨_, .run line hline, rfl, rfl⟩
  · exact ⟨_, .stepIn line hline, rfl, rfl⟩
  · exact ⟨_, .stepOut line hline, rfl, rfl⟩
  · exact ⟨_, .next line hline, rfl, rfl⟩

end serves

section reachable

variable {assembler : Assembler} {s u : Session} {r : Request} {m m' : Moment} {line : Nat}

theorem Loads.stepper_eq {readText : ReadText} {l : Launch} (h : s.Loads assembler readText l u) :
    ∃ p m entry, u.stepper = { machine := m, program := some p, stack := .start entry } := by
  obtain ⟨-, -, source, stepper, -, hstepper, rfl⟩ := h
  rcases s.stepper.launch_cases (assembler source l.assembly) l.machine with
    ⟨p, m, entry, -, -, -, -, hlaunch⟩ | ⟨hfailed, -⟩
  · rw [hlaunch, Prod.mk.injEq] at hstepper
    exact ⟨p, m, entry.name, hstepper.2.symm⟩
  · rw [hstepper] at hfailed
    exact absurd rfl hfailed

theorem Moment.Ends.output (h : m.Ends u) (houtput : m.session.stepper.output = #[]) :
    u.stepper.output = #[] :=
  h.stepper_invariant (I := fun t => t.output = #[]) (fun _ _ _ => rfl) houtput

/-- Between requests all output of the program has been passed on. -/
theorem output_of_reaches (h : Reaches assembler {} s) : s.stepper.output = #[] := by
  induction h with
  | refl => rfl
  | tail r fuel _ hr ih =>
    have hloaded {s t : Session} {readText : ReadText} {l : Launch}
        (hload : s.Loads assembler readText l t) : t.stepper.output = #[] := by
      obtain ⟨p, m, entry, hstepper⟩ := hload.stepper_eq
      rw [hstepper]
    rcases after_cases hr with
      ⟨m, hstart, hends⟩ | ⟨readText, l, t, reason, -, hload, rfl⟩ | hsettled
    · refine hends.output ?_
      cases hstart with
      | launch readText l t hload =>
        show t.stepper.output = #[]
        exact hloaded hload
      | run | stepIn | stepOut | next | input => exact ih
    · show t.stepper.output = #[]
      exact hloaded hload
    · rw [hsettled.1]
      exact ih

theorem currentLine_eq_of_standing? (hline : s.standing? = some line) :
    s.currentLine = some line := by
  unfold standing? at hline
  unfold currentLine
  cases hstate : s.state with
  | running | waiting => simpa [hstate] using hline
  | idle | terminated | failed => simp [hstate] at hline

/-- A session at a line has a frame, since the outermost one is never left. -/
theorem depth_pos_of_currentLine (h : Reaches assembler {} s) (hline : s.currentLine = some line) :
    0 < s.depth := by
  have hloaded {s t : Session} {readText : ReadText} {l : Launch}
      (hload : s.Loads assembler readText l t) : 0 < t.stepper.stack.depth := by
    obtain ⟨p, m, entry, hstepper⟩ := hload.stepper_eq
    rw [hstepper, CallStack.depth_start]
    exact Nat.one_pos
  induction h generalizing line with
  | refl => cases hline
  | tail r fuel _ hr ih =>
    rcases after_cases hr with
      ⟨m, hstart, hends⟩ | ⟨readText, l, t, reason, -, hload, rfl⟩ | ⟨hstepper, -, hstate⟩
    · refine hends.stepper_invariant (I := fun t => 0 < t.stack.depth)
        (fun t line hdepth => LineStepper.stepLine_depth_pos hdepth) ?_
      cases hstart with
      | launch readText l t hload =>
        show 0 < t.stepper.stack.depth
        exact hloaded hload
      | run line hline | stepIn line hline | stepOut line hline | next line hline =>
        exact ih (currentLine_eq_of_standing? hline)
      | input text line pending hwaits => exact ih (by rw [currentLine, hwaits])
    · show 0 < t.stepper.stack.depth
      exact hloaded hload
    · rcases hstate with hstate | hstate
      · rw [depth, hstepper]
        exact ih (by rwa [currentLine, hstate] at hline)
      · simp [currentLine, hstate] at hline

theorem depth_pos_of_reaches (h : Reaches assembler {} s) (hline : s.standing? = some line) :
    0 < s.depth :=
  depth_pos_of_currentLine h (currentLine_eq_of_standing? hline)

theorem afterLine_of_same (hsame : (s.stepper.stepLine line).2 = s.stepper)
    (houtput : s.stepper.output = #[]) : s.afterLine line = s := by
  have hstepper : ({ s.stepper with output := #[] } : LineStepper) = s.stepper := by
    rw [← houtput]
  rw [afterLine, hsame, passOutput_eq]
  simp only [hstepper, houtput]
  simp

/-- Two sessions with the same program that cannot leave the line behind come to rest in the same
way, whatever is pending in them. -/
theorem advance_none_congr {t : Session} {pending : Pending} (pending' : Pending)
    (hstepper : t.stepper = s.stepper) (h : s.advance line pending = (none, u)) :
    ∃ v es, t.advance line pending' = (none, v) ∧ v.stepper = u.stepper ∧
      v.state.unpending = u.state.unpending ∧ u.events = (s.afterLine line).events ++ es ∧
      v.events = (t.afterLine line).events ++ es := by
  have hafter : (t.afterLine line).stepper = (s.afterLine line).stepper := by
    rw [afterLine_stepper, afterLine_stepper, hstepper]
  rcases advance_eq_none h with
    ⟨e, hresult, rfl⟩ | ⟨l, hresult, rfl⟩ | ⟨l, hresult, rfl⟩ | ⟨hresult, rfl⟩ <;>
      rw [← hstepper] at hresult
  · exact ⟨_, _, advance_of_error hresult, hafter, rfl, fail_events _ _ _, fail_events _ _ _⟩
  · exact ⟨_, _, advance_of_ended hresult, hafter, rfl, terminate_events _, terminate_events _⟩
  · exact ⟨_, _, advance_of_waits hresult, hafter, rfl, wait_events _ _ _, wait_events _ _ _⟩
  · rw [← hafter]
    exact ⟨_, _, advance_of_lost hresult, hafter, rfl, fail_events _ _ _, fail_events _ _ _⟩

/-- A line that cannot be left behind ends the request, whatever it aims at. -/
theorem Moment.next_of_not_moved (houtput : m.session.stepper.output = #[])
    (h : ∀ next, (m.session.stepper.stepLine m.line).1 ≠ .ok (.moved (some next))) :
    ∃ u, m.next = .rest u ∧ m.session.advance m.line m.pending = (none, u) := by
  have hadvance : ∃ u, m.session.advance m.line m.pending = (none, u) := by
    rcases hadvance : m.session.advance m.line m.pending with ⟨_ | next, u⟩
    · exact ⟨u, rfl⟩
    · exact absurd (advance_eq_some hadvance).1 (h next)
  obtain ⟨u, hadvance⟩ := hadvance
  refine ⟨u, ?_, hadvance⟩
  rcases m.next_cases with ⟨e, hpeek, hnext⟩ | ⟨hpending, -, hnext⟩ | ⟨-, hnext⟩
  · have hstep := LineStepper.stepLine_of_peek_error hpeek
    have hsame := afterLine_of_same (congrArg Prod.snd hstep) houtput
    rw [advance_of_error (congrArg Prod.fst hstep), hsame] at hadvance
    rw [hnext, (Prod.mk.inj hadvance).2]
  · rw [hpending] at hadvance
    rw [hnext, enter_of_advance_none hadvance]
  · rw [hnext, leave_of_advance_none hadvance]

end reachable

end Session

end Comet
