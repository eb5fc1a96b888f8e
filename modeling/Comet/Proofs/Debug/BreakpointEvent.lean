import Comet.Proofs.Debug.BreakpointHistory
import Comet.Proofs.Debug.Conclusion

namespace Comet.Session

/-- The session stands at a line that has a breakpoint. -/
def AtBreakpoint (s : Session) : Prop :=
  ∃ line, s.state = .running line ∧ s.hitsBreakpoint line = true

section stopped

variable {assembler : Assembler} {s t u : Session} {r : Request} {fuel : Nat}
  {description : Option String}

/-- The breakpoint is one of the file that has been launched. -/
theorem AtBreakpoint.breakpoint (h : s.AtBreakpoint) : ∃ line path b,
    s.state = .running line ∧ s.sourceFile = some path ∧ b ∈ s.breakpoints.get path ∧
      b.verified = true ∧ b.line = line := by
  obtain ⟨line, hstate, hhits⟩ := h
  unfold hitsBreakpoint at hhits
  cases hpath : s.sourceFile with
  | none =>
    rw [hpath] at hhits
    cases hhits
  | some path =>
    rw [hpath] at hhits
    obtain ⟨b, hb, hverified, hline⟩ := BreakpointTable.contains_iff.mp hhits
    exact ⟨line, path, b, hstate, rfl, hb, hverified, hline⟩

theorem Moment.rest_atBreakpoint {m : Moment} (h : m.next = .rest u)
    (hnone : .stopped .breakpoint description ∉ m.session.events)
    (hstop : .stopped .breakpoint description ∈ u.events) : u.AtBreakpoint := by
  have hline : .stopped .breakpoint description ∉ (m.session.afterLine m.line).events := by
    rw [afterLine_events]
    simpa [Event.written] using hnone
  rcases next_rest_cases h with ⟨l, reason, hwhy, -, rfl⟩ | ⟨pending, hadvance⟩ | ⟨e, -, rfl⟩
  · rcases hwhy with rfl | ⟨-, hhits⟩
    · simp [stop_events, hline] at hstop
    · refine ⟨l, rfl, ?_⟩
      have hafter := m.session.afterLine_hitsBreakpoint m.line l
      exact hafter.trans hhits
  · rcases advance_eq_none hadvance with ⟨e, -, rfl⟩ | ⟨l, -, rfl⟩ | ⟨l, -, rfl⟩ | ⟨-, rfl⟩ <;>
      simp [fail_events, terminate_events, wait_events, hline] at hstop
  · simp [fail_events, hnone] at hstop

theorem Moment.Ends.atBreakpoint {m : Moment} (h : m.Ends u)
    (hnone : .stopped .breakpoint description ∉ m.session.events)
    (hstop : .stopped .breakpoint description ∈ u.events) : u.AtBreakpoint := by
  obtain ⟨k, m', hat, hrest⟩ := h
  refine rest_atBreakpoint hrest ?_ hstop
  obtain ⟨texts, htexts⟩ := at?_events hat
  rw [htexts]
  simpa [Event.written] using hnone

theorem resume_atBreakpoint {pending : Pending} {e : Except Error Unit}
    (h : s.resume pending fuel = some (e, u))
    (hnone : .stopped .breakpoint description ∉ s.events)
    (hstop : .stopped .breakpoint description ∈ u.events) : u.AtBreakpoint := by
  cases hline : s.standing? with
  | some line =>
    have hends := ((s.resume_eq_some_iff line pending e u hline).mp ⟨fuel, h⟩).2
    exact hends.atBreakpoint hnone hstop
  | none =>
    unfold standing? at hline
    cases hstate : s.state with
    | idle =>
      rw [resume_of_idle hstate] at h
      cases h
      exact absurd hstop hnone
    | terminated | failed =>
      simp only [resume, hstate, Option.some.injEq, Prod.mk.injEq] at h
      obtain ⟨-, rfl⟩ := h
      simp [terminate_events, hnone] at hstop
    | running | waiting => simp [hstate] at hline

theorem launch_atBreakpoint {readText : ReadText} {l : Launch} {e : Except Error Unit}
    (h : s.launch assembler readText l fuel = some (e, u))
    (hnone : .stopped .breakpoint description ∉ s.events)
    (hstop : .stopped .breakpoint description ∈ u.events) : u.AtBreakpoint := by
  rcases launch_declines h with ⟨t, hload⟩ | hdeclines
  · have hbefore : .stopped .breakpoint description ∉ t.events := by
      obtain ⟨-, -, source, stepper, -, -, rfl⟩ := hload
      exact hnone
    rcases (launched_cases hload h).2 with
      ⟨reason, rfl | ⟨rfl, hhits⟩, rfl⟩ | ⟨m, -, hsession, hends⟩
    · simp [stop_events, hbefore] at hstop
    · exact ⟨0, rfl, hhits⟩
    · exact hends.atBreakpoint (by rwa [hsession]) hstop
  · cases hdeclines with
    | late => exact absurd hstop hnone
    | refused => simp [terminate_events, hnone] at hstop
    | diagnosed => simp [terminate_events, hnone, Event.reported] at hstop

/-- A request that tells of a stop at a breakpoint leaves the session at one. -/
theorem after_atBreakpoint (h : s.after assembler r fuel = some u)
    (hnone : .stopped .breakpoint description ∉ s.events)
    (hstop : .stopped .breakpoint description ∈ u.events) : u.AtBreakpoint := by
  cases r with
  | launch readText l =>
    obtain ⟨⟨e, u⟩, hlaunch, rfl⟩ := Option.map_eq_some_iff.mp h
    exact launch_atBreakpoint hlaunch hnone hstop
  | run | stepIn | stepOut | next =>
    obtain ⟨⟨e, u⟩, hresume, rfl⟩ := Option.map_eq_some_iff.mp h
    exact resume_atBreakpoint hresume hnone hstop
  | evaluate expression context =>
    obtain ⟨⟨e, u⟩, hevaluate, rfl⟩ := Option.map_eq_some_iff.mp h
    rcases evaluate_cases hevaluate with ⟨line, pending, hwaits, rfl⟩ | rfl
    · simp only [evaluate, hwaits, Option.map_eq_some_iff] at hevaluate
      obtain ⟨⟨e, v⟩, hresume, hv⟩ := hevaluate
      obtain ⟨-, rfl⟩ := Prod.mk.inj hv
      exact resume_atBreakpoint hresume hnone hstop
    · exact absurd hstop hnone
  | setBreakpoints readText path lines =>
    obtain rfl := Option.some.inj h
    exact absurd hstop hnone
  | terminate =>
    obtain rfl := Option.some.inj h
    simp [terminate_events, hnone] at hstop
  | takeEvents =>
    obtain rfl := Option.some.inj h
    simp [takeEvents] at hstop

end stopped

/-- The requests that leave a session at the line where it is stopped. -/
def Request.Stays : Request → Prop
  | launch .. | setBreakpoints .. | evaluate .. | takeEvents => True
  | run | stepIn | stepOut | next | terminate => False

section program

variable {assembler : Assembler} {s t u : Session} {r : Request} {fuel line : Nat}

theorem Request.Stays.after_of_running (hr : r.Stays) (hs : s.state = .running line)
    (h : s.after assembler r fuel = some u) : u.state = .running line := by
  have hlaunched : s.state ≠ .idle := by
    rw [hs]
    exact State.noConfusion
  cases r with
  | launch readText l =>
    simp only [after, Session.launch, if_pos hlaunched, Option.map_some, Option.some.injEq] at h
    exact h ▸ hs
  | setBreakpoints | takeEvents =>
    obtain rfl := Option.some.inj h
    exact hs
  | evaluate expression context =>
    obtain ⟨⟨e, u⟩, hevaluate, rfl⟩ := Option.map_eq_some_iff.mp h
    rcases evaluate_cases hevaluate with ⟨line', pending, hwaits, -⟩ | rfl
    · rw [hs] at hwaits
      cases hwaits
    · exact hs
  | run | stepIn | stepOut | next | terminate => exact hr.elim

theorem Moment.Ends.sourceFile {m : Moment} (h : m.Ends u) : u.sourceFile = m.session.sourceFile :=
  h.session_invariant (I := fun s => s.sourceFile = m.session.sourceFile)
    (fun m' hm' => m'.next_settings.2.trans hm') rfl

/-- Only a launch says which program is debugged. -/
theorem after_sourceFile (hr : ∀ readText l, r ≠ .launch readText l)
    (h : s.after assembler r fuel = some u) : u.sourceFile = s.sourceFile := by
  rcases after_cases h with ⟨m, hstart, hends⟩ | ⟨readText, l, t, reason, rfl, -, -⟩ | hsettled
  · rw [hends.sourceFile]
    cases hstart with
    | launch readText l => exact absurd rfl (hr readText l)
    | run | stepIn | stepOut | next | input => rfl
  · exact absurd rfl (hr readText l)
  · exact hsettled.2.1

theorem Loads.sourceFile_of_launch {readText : ReadText} {l : Launch} {e : Except Error Unit}
    (hload : s.Loads assembler readText l t)
    (h : s.launch assembler readText l fuel = some (e, u)) :
    e = .ok () ∧ u.sourceFile = some l.program := by
  have hprogram : t.sourceFile = some l.program := by
    obtain ⟨-, -, source, stepper, -, -, rfl⟩ := hload
    rfl
  obtain ⟨he, hlaunched⟩ := launched_cases hload h
  refine ⟨he, ?_⟩
  rcases hlaunched with ⟨reason, -, rfl⟩ | ⟨m, -, hsession, hends⟩
  · exact hprogram
  · rw [hends.sourceFile, hsession]
    exact hprogram

/-- At most one launch is no error. If there is a program afterwards, it is the one that is named by
that launch. -/
theorem launch_sourceFile {readText : ReadText} {l : Launch} {e : Except Error Unit}
    (h : s.launch assembler readText l fuel = some (e, u)) :
    (e = .ok () → s.state = .idle ∧ u.state ≠ .idle) ∧
      (u.sourceFile = s.sourceFile ∨ (e = .ok () ∧ u.sourceFile = some l.program)) := by
  have hlaunched := launch_state_ne_idle h
  rcases launch_declines h with ⟨t, hload⟩ | hdeclines
  · exact ⟨fun _ => ⟨hload.idle, hlaunched⟩, Or.inr (hload.sourceFile_of_launch h)⟩
  · cases hdeclines with
    | late => exact ⟨nofun, Or.inl rfl⟩
    | refused => exact ⟨nofun, Or.inl rfl⟩
    | diagnosed hidle => exact ⟨fun _ => ⟨hidle, hlaunched⟩, Or.inl rfl⟩

end program

end Comet.Session
