import Comet.Proofs.Debug.Events
import Comet.Proofs.Debug.Goal
import Comet.Proofs.Debug.Position

namespace Comet.Session

/-- The session after a step in, for which one line is always enough. -/
def steppedIn (s : Session) : Session := ((s.stepIn 1).map (·.2)).getD s

def stepsIn (s : Session) : Nat → Session
  | 0 => s
  | k + 1 => (s.stepsIn k).steppedIn

/-- A request that was made in the session `s₀` goes no further than to the session `s`. -/
def Halts (s₀ : Session) (r : Request) (s : Session) : Prop :=
  ∀ line, s.state = .running line → (s₀.goal? r s line).isSome = true

/-- Of the steps in from the session `t`, this is the first after which a request that was made in
the session `s₀` comes to its end. -/
structure FirstHalt (s₀ : Session) (r : Request) (t : Session) (n : Nat) : Prop where
  pos : 0 < n
  halts : s₀.Halts r (t.stepsIn n)
  first : ∀ k, 0 < k → k < n → ¬ s₀.Halts r (t.stepsIn k)

/-- The session `t` has come by steps in to where the moment is. -/
structure Follows (t : Session) (m : Moment) : Prop where
  stepper : t.stepper = m.session.stepper
  breakpoints : t.breakpoints = m.session.breakpoints
  sourceFile : t.sourceFile = m.session.sourceFile
  standing : t.standing? = some m.line
  output : stdoutTexts t.events = stdoutTexts m.session.events

section steps

variable {s t u : Session} {r : Request} {m : Moment} {line next : Nat}

theorem stepIn_of_standing (hline : s.standing? = some line) (fuel : Nat) :
    s.stepIn (fuel + 1) = some (.ok (), match s.advance line .stepIn with
      | (some next, t) => t.stop next .step
      | (none, t) => t) := by
  rw [stepIn, resume_of_pending_ne s line hline .stepIn (by simp), Moment.finish,
    Moment.next_of_pending_ne (by simp), Moment.leave]
  rcases s.advance line .stepIn with ⟨_ | next, t⟩ <;> rfl

theorem steppedIn_eq (hline : s.standing? = some line) :
    s.steppedIn = match s.advance line .stepIn with
      | (some next, t) => t.stop next .step
      | (none, t) => t := by
  rw [steppedIn, stepIn_of_standing hline]
  rfl

/-- A step in is always answered, and only before a launch with an error. -/
theorem stepIn_succ (hidle : s.state ≠ .idle) (fuel : Nat) :
    s.stepIn (fuel + 1) = some (.ok (), s.steppedIn) := by
  cases hstate : s.state with
  | idle => exact absurd hstate hidle
  | running line | waiting line pending =>
    have hline : s.standing? = some line := by rw [standing?, hstate]
    rw [stepIn_of_standing hline, steppedIn_eq hline]
  | terminated | failed line =>
    have hover (fuel : Nat) : s.stepIn fuel = some (.ok (), s.terminate) := by
      rw [stepIn, resume, hstate]
    rw [hover, steppedIn, hover]
    rfl

theorem steppedIn_ne_idle (hidle : s.state ≠ .idle) : s.steppedIn.state ≠ .idle := by
  have hafter : s.after (fun _ _ => {}) .stepIn 1 = some s.steppedIn := by
    rw [after, stepIn_succ hidle]
    rfl
  exact after_state_ne_idle hidle hafter

theorem stepsIn_ne_idle (hidle : s.state ≠ .idle) (k : Nat) : (s.stepsIn k).state ≠ .idle := by
  induction k with
  | zero => exact hidle
  | succ k ih => exact steppedIn_ne_idle ih

/-- The first of the steps can be taken apart as well as the last. -/
theorem stepsIn_succ (s : Session) (k : Nat) : s.stepsIn (k + 1) = s.steppedIn.stepsIn k := by
  induction k with
  | zero => rfl
  | succ k ih => rw [stepsIn, ih, stepsIn]

theorem Follows.afterLine_stepper (h : t.Follows m) :
    (t.afterLine m.line).stepper = (m.session.afterLine m.line).stepper := by
  rw [Session.afterLine_stepper, Session.afterLine_stepper, h.stepper]

theorem Follows.afterLine_output (h : t.Follows m) :
    stdoutTexts (t.afterLine m.line).events =
      stdoutTexts (m.session.afterLine m.line).events := by
  simp only [afterLine, passOutput_eq, stdoutTexts_append, h.stepper, h.output]

/-- Where the request leaves a line behind, so does the step in. -/
theorem Follows.of_moved (h : t.Follows m)
    (hmoved : (m.session.stepper.stepLine m.line).1 = .ok (.moved (some next)))
    (pending : Pending) :
    t.steppedIn.state = .running next ∧
      t.steppedIn.Follows ⟨m.session.afterLine m.line, next, pending⟩ := by
  have hstep : t.steppedIn = (t.afterLine m.line).stop next .step := by
    rw [steppedIn_eq h.standing, advance_of_moved (by rw [h.stepper, hmoved])]
  rw [hstep]
  refine ⟨rfl, h.afterLine_stepper, ?_, ?_, rfl, ?_⟩
  · show (t.afterLine m.line).breakpoints = _
    rw [afterLine_breakpoints, afterLine_breakpoints, h.breakpoints]
  · show (t.afterLine m.line).sourceFile = _
    rw [afterLine_sourceFile, afterLine_sourceFile, h.sourceFile]
  · rw [stop_texts]
    exact h.afterLine_output

theorem Follows.agrees_of_stop (h : t.Follows m)
    (hmoved : (m.session.stepper.stepLine m.line).1 = .ok (.moved (some next)))
    (reason : StopReason) :
    ((m.session.afterLine m.line).stop next reason).Agrees t.steppedIn := by
  obtain ⟨hstate, hfollows⟩ := h.of_moved hmoved .stepIn
  refine ⟨?_, ?_, by rw [hstate]; rfl, by rw [currentLine, currentLine, hstate]; rfl, ?_⟩
  · rw [hfollows.stepper, stop_stepper]
  · rw [hfollows.stepper, stop_stepper]
  · rw [hfollows.output, stop_texts]

/-- Where the line cannot be left behind, the two are over or wait in the same way. -/
theorem Follows.of_not_moved (h : t.Follows m) {pending : Pending}
    (hadvance : m.session.advance m.line pending = (none, u)) :
    u.Agrees t.steppedIn ∧ ∀ line, t.steppedIn.state ≠ .running line := by
  obtain ⟨v, es, hv, hstepper, hstate, huevents, hvevents⟩ :=
    advance_none_congr .stepIn h.stepper hadvance
  have hstep : t.steppedIn = v := by rw [steppedIn_eq h.standing, hv]
  rw [hstep]
  refine ⟨⟨by rw [hstepper], by rw [hstepper], hstate.symm, ?_, ?_⟩,
    state_ne_running_of_advance hv⟩
  · exact currentLine_congr hstate.symm
  · rw [huevents, hvevents, stdoutTexts_append, stdoutTexts_append, h.afterLine_output]

theorem FirstHalt.one {s₀ : Session} (h : s₀.Halts r t.steppedIn) : FirstHalt s₀ r t 1 :=
  ⟨Nat.one_pos, h, fun k hpos hlt => by omega⟩

theorem FirstHalt.succ {s₀ : Session} {n : Nat} (hgoes : ¬ s₀.Halts r t.steppedIn)
    (h : FirstHalt s₀ r t.steppedIn n) : FirstHalt s₀ r t (n + 1) := by
  refine ⟨Nat.succ_pos n, by rw [stepsIn_succ]; exact h.halts, fun k hpos hlt => ?_⟩
  cases k with
  | zero => omega
  | succ k =>
    rw [stepsIn_succ]
    cases k with
    | zero => exact hgoes
    | succ k => exact h.first (k + 1) (Nat.succ_pos k) (by omega)

/-- After one more line of the request, the session that steps in has come to the end as well, or
still follows. -/
theorem Follows.step {s₀ : Session} (hserves : Serves s₀ r m) (h : t.Follows m)
    (houtput : m.session.stepper.output = #[]) :
    (∃ u, m.next = .rest u ∧ s₀.Halts r t.steppedIn ∧ EndsAt s₀ r u t.steppedIn) ∨
    ∃ m', m.next = .going m' ∧ ¬ s₀.Halts r t.steppedIn ∧ Serves s₀ r m' ∧
      t.steppedIn.Follows m' ∧ m'.session.stepper.output = #[] := by
  by_cases hmoved : ∃ next, (m.session.stepper.stepLine m.line).1 = .ok (.moved (some next))
  · obtain ⟨next, hmoved⟩ := hmoved
    have hgoal : s₀.goal? r t.steppedIn next = s₀.goal? r (m.session.afterLine m.line) next := by
      obtain ⟨-, hfollows⟩ := h.of_moved hmoved .stepIn
      exact goal?_congr hfollows.stepper hfollows.breakpoints hfollows.sourceFile
    cases hserves.nears hmoved with
    | there reason hreason hnext =>
      refine Or.inl ⟨_, hnext, ?_, h.agrees_of_stop hmoved reason, ?_⟩
      · intro line hline
        rw [(h.of_moved hmoved .stepIn).1, State.running.injEq] at hline
        rw [← hline, hgoal, hreason]
        rfl
      · intro line hline
        have hline : next = line := State.running.inj hline
        rw [← hline, hgoal]
        exact ⟨reason, hreason, Array.back?_push⟩
    | nearer pending hnone hnext hserves' =>
      obtain ⟨hstate, hfollows⟩ := h.of_moved hmoved pending
      refine Or.inr ⟨_, hnext, fun hhalts => ?_, hserves', hfollows, ?_⟩
      · have hsome := hhalts next hstate
        rw [hgoal, hnone] at hsome
        cases hsome
      · rw [Session.afterLine_stepper]
  · obtain ⟨u, hnext, hadvance⟩ :=
      Moment.next_of_not_moved houtput fun next hnext => hmoved ⟨next, hnext⟩
    obtain ⟨hagrees, hover⟩ := h.of_not_moved hadvance
    exact Or.inl ⟨u, hnext, fun line hline => absurd hline (hover line), hagrees,
      fun line hline => absurd hline (state_ne_running_of_advance hadvance line)⟩

theorem Follows.ends {s₀ : Session} (hserves : Serves s₀ r m) (h : t.Follows m)
    (houtput : m.session.stepper.output = #[]) (hends : m.Ends u) :
    ∃ n, FirstHalt s₀ r t n ∧ EndsAt s₀ r u (t.stepsIn n) := by
  -- By induction on the lines that the request leaves before it comes to rest.
  obtain ⟨k, m', hat, hrest⟩ := hends
  induction k generalizing m t with
  | zero =>
    obtain rfl : m = m' := Option.some.inj hat
    rcases h.step hserves houtput with ⟨v, hnext, hhalts, hends⟩ | ⟨m', hnext, -⟩
    · obtain rfl : v = u := Progress.rest.inj (hnext.symm.trans hrest)
      exact ⟨1, .one hhalts, hends⟩
    · rw [hnext] at hrest
      cases hrest
  | succ k ih =>
    rw [Moment.at?_succ] at hat
    rcases h.step hserves houtput with
      ⟨v, hnext, -, -⟩ | ⟨m₁, hnext, hgoes, hserves', hfollows, houtput'⟩
    · simp [hnext] at hat
    · rw [hnext] at hat
      obtain ⟨n, hfirst, hends⟩ := ih hserves' hfollows houtput' hat
      exact ⟨n + 1, hfirst.succ hgoes, by rw [stepsIn_succ]; exact hends⟩

theorem Follows.ends_of_halts {s₀ : Session} (hserves : Serves s₀ r m) (h : t.Follows m)
    (houtput : m.session.stepper.output = #[]) {n : Nat} (hhalts : s₀.Halts r (t.stepsIn (n + 1))) :
    ∃ u, m.Ends u := by
  induction n generalizing m t with
  | zero =>
    rcases h.step hserves houtput with ⟨u, hnext, -⟩ | ⟨m', -, hgoes, -⟩
    · exact ⟨u, 0, m, rfl, hnext⟩
    · exact absurd hhalts hgoes
  | succ n ih =>
    rcases h.step hserves houtput with
      ⟨u, hnext, -⟩ | ⟨m', hnext, -, hserves', hfollows, houtput'⟩
    · exact ⟨u, 0, m, rfl, hnext⟩
    · rw [stepsIn_succ] at hhalts
      obtain ⟨u, hends⟩ := ih hserves' hfollows houtput' hhalts
      exact ⟨u, (Moment.ends_of_going hnext u).mpr hends⟩

end steps

/-- A request to go on from a line is answered if and only if repeated steps in come to its aim, and
then with what the first of them that does so has led to. -/
theorem long_requests_iterate_steps_in {assembler : Assembler} {s : Session} {r : Request}
    {line : Nat} (hreaches : Reaches assembler {} s) (hline : s.standing? = some line)
    (hr : r.Steps) :
    (∀ k fuel, (s.stepsIn k).stepIn (fuel + 1) = some (.ok (), s.stepsIn (k + 1))) ∧
    (∀ fuel u, s.after assembler r fuel = some u →
      ∃ n, FirstHalt s r s n ∧ EndsAt s r u (s.stepsIn n)) ∧
    ∀ n, 0 < n → s.Halts r (s.stepsIn n) → ∃ fuel u, s.after assembler r fuel = some u := by
  obtain ⟨m, hstart, rfl, rfl⟩ := hr.starts assembler hline
  have hserves := hstart.serves hr (depth_pos_of_reaches hreaches hline)
  have houtput := output_of_reaches hreaches
  have hfollows : m.session.Follows m := ⟨rfl, rfl, rfl, hline, rfl⟩
  refine ⟨fun k fuel => ?_, fun fuel u h => ?_, fun n hpos hhalts => ?_⟩
  · have hidle : m.session.state ≠ .idle := by
      intro hidle
      rw [standing?, hidle] at hline
      cases hline
    exact stepIn_succ (stepsIn_ne_idle hidle k) fuel
  · exact hfollows.ends hserves houtput ((after_eq_some_iff hstart).mp ⟨fuel, h⟩)
  · obtain ⟨n, rfl⟩ := Nat.exists_eq_succ_of_ne_zero (Nat.pos_iff_ne_zero.mp hpos)
    obtain ⟨u, hends⟩ := hfollows.ends_of_halts hserves houtput hhalts
    obtain ⟨fuel, h⟩ := (after_eq_some_iff hstart).mpr hends
    exact ⟨fuel, u, h⟩

/-- A session of the two blocks that stands at the call of the second one. -/
def atCallSession : Session :=
  (({} : Session).afterAll assemble
    [(.launch (fun _ => .ok callSource) callLaunch, 0), (.stepIn, 1)]).getD {}

/-- A step over the call is answered on the line below it, in the frame in which it was asked for,
and so are the steps in through the callee. -/
theorem call_stepped_over_by_steps_in : ∃ u n, atCallSession.calls = true ∧
    atCallSession.after assemble .next 3 = some u ∧ u.state = .running 2 ∧
    FirstHalt atCallSession .next atCallSession n ∧
    (atCallSession.stepsIn n).depth = atCallSession.depth ∧
    (atCallSession.stepsIn n).currentLine = some 2 := by
  have hreached : (({} : Session).afterAll assemble
      [(.launch (fun _ => .ok callSource) callLaunch, 0), (.stepIn, 1)]).isSome = true := by
    decide +kernel
  obtain ⟨s, hs⟩ := Option.isSome_iff_exists.mp hreached
  have hsame : s = atCallSession := by rw [atCallSession, hs]; rfl
  have hreaches : Reaches assemble {} atCallSession := hsame ▸ reaches_of_afterAll hs
  have hanswer : (atCallSession.after assemble .next 3).map
      (fun u => (u.state, u.depth, u.currentLine)) = some (.running 2, 1, some 2) := by
    decide +kernel
  obtain ⟨u, hu, hstates⟩ := Option.map_eq_some_iff.mp hanswer
  simp only [Prod.mk.injEq] at hstates
  obtain ⟨hstate, hdepth, hcurrent⟩ := hstates
  have hline : atCallSession.standing? = some 1 := by decide +kernel
  obtain ⟨-, hends, -⟩ := long_requests_iterate_steps_in (r := .next) hreaches hline
    (Or.inr (Or.inr (Or.inr rfl)))
  obtain ⟨n, hfirst, hend⟩ := hends 3 u hu
  have hbefore : atCallSession.depth = 1 := by decide +kernel
  refine ⟨u, n, by decide +kernel, hu, hstate, hfirst, ?_, hend.agrees.line ▸ hcurrent⟩
  rw [hbefore, ← hdepth, depth, depth, hend.agrees.stack]

end Comet.Session
