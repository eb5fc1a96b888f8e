import Comet.Assembly.Link
import Comet.Proofs.Debug.Goal

namespace Comet.Session

/-- The session is over. -/
def Finished (s : Session) : Prop := s.state = .terminated ∨ ∃ line, s.state = .failed line

/-- The request executes an instruction at one of the lines that it leaves. -/
def Executes (s : Session) (assembler : Assembler) (r : Request) : Prop :=
  ∃ m k m', Starts assembler s r m ∧ m.at? k = some m' ∧
    m'.session.stepper.executes m'.line = true

/-- The requests after which a session is not idle. -/
def Request.EndsIdleness : Request → Prop
  | launch .. | terminate => True
  | _ => False

section idle

variable {assembler : Assembler} {s u : Session} {r : Request} {fuel : Nat}

theorem launch_state_ne_idle {readText : ReadText} {l : Launch} {e : Except Error Unit}
    (h : s.launch assembler readText l fuel = some (e, u)) : u.state ≠ .idle := by
  rcases launch_declines h with ⟨t, hload⟩ | hdeclines
  · rcases (launched_cases hload h).2 with ⟨reason, -, rfl⟩ | ⟨m, -, -, hends⟩
    · exact State.noConfusion
    · exact hends.state_ne_idle
  · cases hdeclines with
    | late hlaunched => exact hlaunched
    | refused | diagnosed => exact State.noConfusion

theorem resume_of_idle (hs : s.state = .idle) (pending : Pending) :
    s.resume pending fuel = some (.error .notLaunched, s) := by
  simp only [resume, hs]

theorem Request.Steps.reply_eq_resume (hr : r.Steps) (s : Session) (assembler : Assembler) :
    ∃ pending, ∀ fuel, s.reply assembler r fuel = s.resume pending fuel := by
  rcases hr with rfl | rfl | rfl | rfl
  · exact ⟨.run, fun _ => rfl⟩
  · exact ⟨.stepIn, fun _ => rfl⟩
  · exact ⟨.stepOut (s.stepper.stack.depth - 1), fun _ => rfl⟩
  · exact ⟨.next, fun _ => rfl⟩

theorem after_state_eq_idle_iff (hs : s.state = .idle)
    (h : s.after assembler r fuel = some u) : u.state = .idle ↔ ¬ r.EndsIdleness := by
  have stepped (hr : r.Steps) : u = s := by
    obtain ⟨pending, hreply⟩ := hr.reply_eq_resume s assembler
    rw [← map_reply, hreply, resume_of_idle hs] at h
    exact (Option.some.inj h).symm
  cases r with
  | launch readText l =>
    obtain ⟨⟨e, u⟩, hlaunch, rfl⟩ := Option.map_eq_some_iff.mp h
    exact iff_of_false (launch_state_ne_idle hlaunch) (not_not_intro trivial)
  | terminate =>
    cases h
    exact iff_of_false State.noConfusion (not_not_intro trivial)
  | setBreakpoints | takeEvents =>
    cases h
    exact iff_of_true hs not_false
  | run => exact iff_of_true (stepped (Or.inl rfl) ▸ hs) not_false
  | stepIn => exact iff_of_true (stepped (Or.inr (Or.inl rfl)) ▸ hs) not_false
  | stepOut => exact iff_of_true (stepped (Or.inr (Or.inr (Or.inl rfl))) ▸ hs) not_false
  | next => exact iff_of_true (stepped (Or.inr (Or.inr (Or.inr rfl))) ▸ hs) not_false
  | evaluate expression context =>
    obtain ⟨⟨e, u⟩, hevaluate, rfl⟩ := Option.map_eq_some_iff.mp h
    rcases evaluate_cases hevaluate with ⟨line, pending, hwaits, -⟩ | hsame
    · rw [hs] at hwaits
      cases hwaits
    · exact iff_of_true (hsame ▸ hs) not_false

theorem afterAll_state_ne_idle {rs : List (Request × Nat)} (hs : s.state ≠ .idle)
    (h : s.afterAll assembler rs = some u) : u.state ≠ .idle := by
  induction rs generalizing s with
  | nil =>
    cases h
    exact hs
  | cons r rs ih =>
    obtain ⟨t, ht, hrest⟩ := Option.bind_eq_some_iff.mp h
    exact ih (after_state_ne_idle hs ht) hrest

theorem afterAll_state_eq_idle_iff {rs : List (Request × Nat)} (hs : s.state = .idle)
    (h : s.afterAll assembler rs = some u) :
    u.state = .idle ↔ ∀ r ∈ rs, ¬ r.1.EndsIdleness := by
  induction rs generalizing s with
  | nil =>
    cases h
    exact iff_of_true hs (List.forall_mem_nil _)
  | cons r rs ih =>
    obtain ⟨t, ht, hrest⟩ := Option.bind_eq_some_iff.mp h
    have hfirst := after_state_eq_idle_iff hs ht
    rw [List.forall_mem_cons]
    by_cases hidle : t.state = .idle
    · rw [ih hidle hrest]
      exact (and_iff_right (hfirst.mp hidle)).symm
    · refine iff_of_false (afterAll_state_ne_idle hidle hrest) ?_
      intro hall
      exact hidle (hfirst.mpr hall.1)

end idle

section finished

variable {assembler : Assembler} {s u : Session} {r : Request} {m : Moment} {fuel : Nat}

theorem Finished.state_ne_idle (hs : s.Finished) : s.state ≠ .idle := by
  rcases hs with hover | ⟨line, hfailed⟩
  · rw [hover]
    exact State.noConfusion
  · rw [hfailed]
    exact State.noConfusion

theorem Finished.standing?_eq_none (hs : s.Finished) : s.standing? = none := by
  rcases hs with hover | ⟨line, hfailed⟩
  · rw [standing?, hover]
  · rw [standing?, hfailed]

/-- There is no line to go on from, nothing that waits for input, and no program to load. -/
theorem Finished.not_starts (hs : s.Finished) : ¬ Starts assembler s r m := by
  intro hstart
  cases hstart with
  | launch readText l t hload => exact hs.state_ne_idle hload.idle
  | run line hline | stepIn line hline | stepOut line hline | next line hline =>
    rw [hs.standing?_eq_none] at hline
    cases hline
  | input text line pending hwaits =>
    have hline : s.standing? = some line := by rw [standing?, hwaits]
    rw [hs.standing?_eq_none] at hline
    cases hline

theorem Finished.settled (hs : s.Finished) (h : s.after assembler r fuel = some u) :
    s.Settled u := by
  rcases after_cases h with ⟨m, hstart, -⟩ | ⟨readText, l, t, reason, -, hload, -⟩ | hsettled
  · exact absurd hstart hs.not_starts
  · exact absurd hload.idle hs.state_ne_idle
  · exact hsettled

/-- What one request leaves alone, all requests leave alone. -/
theorem Finished.reaches (hs : s.Finished) (h : Reaches assembler s u) :
    u.Finished ∧ u.stepper = s.stepper ∧ (u.state = s.state ∨ u.state = .terminated) := by
  induction h with
  | refl => exact ⟨hs, rfl, Or.inl rfl⟩
  | tail r fuel _ hr ih =>
    obtain ⟨hfinished, hstepper, hstate⟩ := ih
    obtain ⟨hsame, -, hkept⟩ := hfinished.settled hr
    rcases hkept with hkept | hover
    · refine ⟨?_, hsame.trans hstepper, ?_⟩
      · rwa [Finished, hkept]
      · rwa [hkept]
    · exact ⟨Or.inl hover, hsame.trans hstepper, Or.inr hover⟩

theorem Finished.reply_step (hs : s.Finished) (hr : r.Steps) :
    s.reply assembler r fuel = some (.ok (), s.terminate) := by
  obtain ⟨pending, hreply⟩ := hr.reply_eq_resume s assembler
  rw [hreply]
  rcases hs with hover | ⟨line, hfailed⟩
  · simp only [resume, hover]
  · simp only [resume, hfailed]

end finished

/-- A session is idle exactly as long as nobody has launched or terminated it. And once it is over,
whatever is asked of it afterwards, it stays as it is or is terminated for good; its machine, its
call stack and all else that is stepped are left alone; no request executes an instruction; every
request to go on succeeds with one more event, which tells that it is over, and nothing else; and
every launch is turned down and changes nothing. -/
theorem finished_session_never_stepped (assembler : Assembler) :
    (∀ rs s, ({} : Session).afterAll assembler rs = some s →
      (s.state = .idle ↔ ∀ r ∈ rs, ¬ r.1.EndsIdleness)) ∧
    ∀ s u, s.Finished → Reaches assembler s u →
      (u.state = s.state ∨ u.state = .terminated) ∧ u.stepper = s.stepper ∧
      (∀ r, ¬ u.Executes assembler r) ∧
      (∀ r fuel, r.Steps → u.reply assembler r fuel =
        some (.ok (), { u with state := .terminated, events := u.events.push .terminated })) ∧
      ∀ readText l fuel, u.reply assembler (.launch readText l) fuel =
        some (.error .alreadyLaunched, u) := by
  refine ⟨fun rs s h => afterAll_state_eq_idle_iff rfl h, ?_⟩
  intro s u hs hreaches
  obtain ⟨hfinished, hstepper, hstate⟩ := hs.reaches hreaches
  refine ⟨hstate, hstepper, ?_, ?_, ?_⟩
  · rintro r ⟨m, k, m', hstart, -, -⟩
    exact hfinished.not_starts hstart
  · intro r fuel hr
    exact hfinished.reply_step hr
  · intro readText l fuel
    exact if_pos hfinished.state_ne_idle

/-- The machine knows no such supervisor call, so the program fails at its first instruction. -/
def faultySource : String := "MAIN START\n SVC 9\n RET\n END\n"

def faultyLaunch : Launch := { program := "p.cas" }

def faultyRequests : List (Request × Nat) :=
  [(.takeEvents, 0), (.launch (fun _ => .ok faultySource) faultyLaunch, 8)]

/-- A step ends the session of the failed program with one event, and another launch of it changes
nothing. -/
theorem failed_session_ended_by_step : ∃ s u,
    ({} : Session).afterAll assemble faultyRequests = some s ∧
    s.state = .failed 1 ∧ s.reply assemble .next 0 = some (.ok (), u) ∧ u.state = .terminated ∧
    u.events = s.events.push .terminated ∧ u.stepper = s.stepper ∧ ¬ u.Executes assemble .run ∧
    u.reply assemble (.launch (fun _ => .ok faultySource) faultyLaunch) 8 =
      some (.error .alreadyLaunched, u) := by
  have hstates : (({} : Session).afterAll assemble faultyRequests).map (·.state) =
      some (.failed 1) := by decide +kernel
  obtain ⟨s, hs, hfailed⟩ := Option.map_eq_some_iff.mp hstates
  obtain ⟨-, hover⟩ := finished_session_never_stepped assemble
  have hfinished : s.Finished := Or.inr ⟨1, hfailed⟩
  obtain ⟨-, -, -, hstep, -⟩ := hover s s hfinished .refl
  have hnext := hstep .next 0 (Or.inr (Or.inr (Or.inr rfl)))
  have hafter := map_reply s assemble .next 0
  rw [hnext, Option.map_some] at hafter
  obtain ⟨-, hstepper, hexecutes, -, hlaunch⟩ :=
    hover s _ hfinished (.tail .next 0 .refl hafter.symm)
  exact ⟨s, _, hs, hfailed, hnext, rfl, rfl, hstepper, hexecutes .run, hlaunch _ _ 8⟩

end Comet.Session
