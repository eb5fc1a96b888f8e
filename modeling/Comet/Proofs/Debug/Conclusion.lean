import Comet.Assembly.Link
import Comet.Proofs.Debug.Finished

namespace Comet.Session

/-- The last events of a request, one conclusion for each state in which a request can leave a
session. -/
structure Concludes (conclusion : List Event) (state : State) : Prop where
  launched : state ≠ .idle
  running : (∃ line, state = .running line) ↔
    ∃ reason, reason ≠ StopReason.exception ∧ conclusion = [.stopped reason none]
  failed : (∃ line, state = .failed line) ↔ ∃ message,
    conclusion = [.output .stderr (message ++ "\n"), .stopped .exception (some message)]
  waiting : (∃ line pending, state = .waiting line pending) ↔
    conclusion = [.output .console inputPrompt]
  terminated : state = .terminated ↔ conclusion = [.terminated]

/-- What the session `u` tells beyond the session `s`: the faults of the program, or lines that it
has written, and a conclusion. -/
def Reports (s : Session) (faults : List Diagnostic) (u : Session) : Prop :=
  ∃ texts conclusion, Concludes conclusion u.state ∧ (faults = [] ∨ texts = []) ∧
    u.events = s.events ++
      (faults.map Event.reported ++ texts.map Event.written ++ conclusion).toArray

namespace Request

/-- The requests by which a session is made to go on: to launch a program, to leave lines, and to
give a session the input that it waits for. -/
def Acts (s : Session) : Request → Prop
  | launch .. | run | stepIn | stepOut | next => True
  | evaluate _ context => context = .repl ∧ ∃ line pending, s.state = .waiting line pending
  | setBreakpoints .. | terminate | takeEvents => False

/-- To leave lines before anything has been launched, or to launch a program afterwards. -/
def Untimely (s : Session) (r : Request) : Prop :=
  (r.Steps ∧ s.state = .idle) ∨ (∃ readText l, r = .launch readText l) ∧ s.state ≠ .idle

/-- What is wrong with the program, if the request is about to load one. -/
def faults (s : Session) (assembler : Assembler) : Request → List Diagnostic
  | launch readText l => s.compileErrors assembler readText l
  | _ => []

end Request

section concludes

theorem concludes_stop {reason : StopReason} (hreason : reason ≠ .exception) (line : Nat) :
    Concludes [.stopped reason none] (.running line) where
  launched := State.noConfusion
  running := by simpa using hreason
  failed := by simp
  waiting := by simp
  terminated := by simp

theorem concludes_fail (line : Nat) (message : String) :
    Concludes [.output .stderr (message ++ "\n"), .stopped .exception (some message)]
      (.failed line) where
  launched := State.noConfusion
  running := by simp
  failed := by simp
  waiting := by simp
  terminated := by simp

theorem concludes_wait (line : Nat) (pending : Pending) :
    Concludes [.output .console inputPrompt] (.waiting line pending) where
  launched := State.noConfusion
  running := by simp
  failed := by simp
  waiting := by simp
  terminated := by simp

theorem concludes_terminate : Concludes [.terminated] .terminated where
  launched := State.noConfusion
  running := by simp
  failed := by simp
  waiting := by simp
  terminated := by simp

/-- There is a conclusion. -/
theorem Concludes.ne_nil {conclusion : List Event} {state : State}
    (h : Concludes conclusion state) : conclusion ≠ [] := by
  rintro rfl
  cases state with
  | idle => exact h.launched rfl
  | running line =>
    obtain ⟨reason, -, hnil⟩ := h.running.mp ⟨line, rfl⟩
    cases hnil
  | waiting line pending =>
    have hnil := h.waiting.mp ⟨line, pending, rfl⟩
    cases hnil
  | terminated =>
    have hnil := h.terminated.mp rfl
    cases hnil
  | failed line =>
    obtain ⟨message, hnil⟩ := h.failed.mp ⟨line, rfl⟩
    cases hnil

end concludes

section reports

variable {assembler : Assembler} {s t u : Session} {m m' : Moment} {r : Request}

theorem Reports.events_ne {faults : List Diagnostic} (h : s.Reports faults u) :
    u.events ≠ s.events := by
  obtain ⟨texts, conclusion, hconclusion, -, hevents⟩ := h
  intro hsame
  have hsize := congrArg Array.size (hevents.symm.trans hsame)
  have hpos := List.length_pos_iff.mpr hconclusion.ne_nil
  simp only [Array.size_append, List.size_toArray, List.length_append] at hsize
  omega

theorem Reports.of_conclusion {conclusion : List Event} (hstate : Concludes conclusion u.state)
    (hevents : u.events = s.events ++ conclusion.toArray) : s.Reports [] u :=
  ⟨[], conclusion, hstate, Or.inl rfl, hevents⟩

/-- What the program has written before is told before. -/
theorem Reports.behind_written {texts : List String} (h : t.Reports [] u)
    (hevents : t.events = s.events ++ (texts.map Event.written).toArray) : s.Reports [] u := by
  obtain ⟨more, conclusion, hconclusion, -, htold⟩ := h
  refine ⟨texts ++ more, conclusion, hconclusion, Or.inl rfl, ?_⟩
  rw [htold, hevents]
  simp

theorem afterLine_events (s : Session) (line : Nat) : (s.afterLine line).events =
    s.events ++ ((s.stepper.stepLine line).2.output.toList.map Event.written).toArray := by
  rw [afterLine, passOutput_eq, ← List.map_toArray]
  rfl

theorem Moment.at?_events {k : Nat} (h : m.at? k = some m') :
    ∃ texts : List String,
      m'.session.events = m.session.events ++ (texts.map Event.written).toArray := by
  refine at?_invariant (I := fun m' => ∃ texts : List String,
    m'.session.events = m.session.events ++ (texts.map Event.written).toArray) ?_ ⟨[], by simp⟩ h
  intro m₁ m₂ h₁ hnext
  obtain ⟨texts, htexts⟩ := h₁
  obtain ⟨-, hs, -, -⟩ := next_eq_going hnext
  refine ⟨texts ++ (m₁.session.stepper.stepLine m₁.line).2.output.toList, ?_⟩
  rw [hs, afterLine_events, htexts]
  simp

/-- A request comes to rest with a conclusion, whether it stops, or the session comes to rest by
itself, or a step over finds no instruction. -/
theorem Moment.rest_reports (h : m.next = .rest u) : m.session.Reports [] u := by
  have hline := m.session.afterLine_events m.line
  rcases next_rest_cases h with
    ⟨l, reason, hwhy, -, rfl⟩ | ⟨pending, hadvance⟩ | ⟨e, -, rfl⟩
  · have hreason : reason ≠ .exception := by
      rintro rfl
      simp at hwhy
    exact Reports.behind_written
      (.of_conclusion (concludes_stop hreason l) (stop_events _ l reason)) hline
  · refine Reports.behind_written ?_ hline
    rcases advance_eq_none hadvance with ⟨e, -, rfl⟩ | ⟨l, -, rfl⟩ | ⟨l, -, rfl⟩ | ⟨-, rfl⟩
    · exact .of_conclusion (concludes_fail m.line _) (fail_events _ _ _)
    · exact .of_conclusion concludes_terminate (terminate_events _)
    · exact .of_conclusion (concludes_wait l pending) (wait_events _ l pending)
    · exact .of_conclusion (concludes_fail m.line _) (fail_events _ _ _)
  · exact .of_conclusion (concludes_fail m.line _) (fail_events _ _ _)

theorem Moment.Ends.reports (h : m.Ends u) : m.session.Reports [] u := by
  obtain ⟨k, m', hat, hrest⟩ := h
  obtain ⟨texts, htexts⟩ := at?_events hat
  exact (rest_reports hrest).behind_written htexts

theorem Loads.compileErrors_eq_nil {readText : ReadText} {l : Launch}
    (h : s.Loads assembler readText l t) : s.compileErrors assembler readText l = [] := by
  obtain ⟨hidle, hext, source, stepper, hread, hlaunch, -⟩ := h
  have hanswer := s.stepper.launch_answer (assembler source l.assembly) l.machine
  rw [hlaunch] at hanswer
  simp only [compileErrors, hidle, hext, and_self, if_true, hread]
  exact hanswer.symm

/-- A request that leaves lines tells of no faults of the program. -/
theorem Starts.reports (hstart : Starts assembler s r m) (hends : m.Ends u) :
    s.Reports (r.faults s assembler) u := by
  have hreports := hends.reports
  cases hstart with
  | launch readText l t hload =>
    have hfree : Request.faults s assembler (.launch readText l) = [] := hload.compileErrors_eq_nil
    obtain ⟨-, -, source, stepper, -, -, rfl⟩ := hload
    rw [hfree]
    exact hreports
  | run | stepIn | stepOut | next | input => exact hreports

theorem Loads.reports_stop {readText : ReadText} {l : Launch} (h : s.Loads assembler readText l t)
    {reason : StopReason} (hreason : reason ≠ .exception) :
    s.Reports (s.compileErrors assembler readText l) (t.stop 0 reason) := by
  rw [h.compileErrors_eq_nil]
  obtain ⟨-, -, source, stepper, -, -, rfl⟩ := h
  exact .of_conclusion (concludes_stop hreason 0) (stop_events _ 0 reason)

theorem launch_reports {readText : ReadText} {l : Launch} {fuel : Nat} {answer : Except Error Unit}
    (hidle : s.state = .idle) (h : s.launch assembler readText l fuel = some (answer, u)) :
    s.Reports (s.compileErrors assembler readText l) u := by
  rcases launch_declines h with ⟨t, hload⟩ | hdeclines
  · rcases (launched_cases hload h).2 with
      ⟨reason, rfl | ⟨rfl, -⟩, rfl⟩ | ⟨m, hstart, -, hends⟩
    · exact hload.reports_stop StopReason.noConfusion
    · exact hload.reports_stop StopReason.noConfusion
    · exact hstart.reports hends
  · cases hdeclines with
    | late hlaunched => exact absurd hidle hlaunched
    | refused hidle hfree e =>
      rw [hfree]
      exact .of_conclusion concludes_terminate (terminate_events s)
    | diagnosed hidle hfaulty =>
      refine ⟨[], [.terminated], concludes_terminate, Or.inr rfl, ?_⟩
      rw [terminate_events]
      simp

theorem Request.Steps.reports (hr : r.Steps) (hlaunched : s.state ≠ .idle) {fuel : Nat}
    {answer : Except Error Unit} (h : s.reply assembler r fuel = some (answer, u)) :
    s.Reports [] u := by
  cases hline : s.standing? with
  | some line =>
    obtain ⟨m, hstart, hsession, -⟩ := hr.starts assembler hline
    have hafter : s.after assembler r fuel = some u := by
      rw [← map_reply, h, Option.map_some]
    have hends := (after_eq_some_iff hstart).mp ⟨fuel, hafter⟩
    exact hsession ▸ hends.reports
  | none =>
    have hfinished : s.Finished := by
      unfold standing? at hline
      cases hstate : s.state with
      | idle => exact absurd hstate hlaunched
      | running line | waiting line pending => simp [hstate] at hline
      | terminated => exact Or.inl hstate
      | failed line => exact Or.inr ⟨line, hstate⟩
    rw [hfinished.reply_step hr] at h
    cases h
    exact .of_conclusion concludes_terminate (terminate_events s)

end reports

/-- The events of a request tell the state in which it leaves the session. Behind the faults of the
program, if it is launched and has any, or else behind the lines that it has written, there is one
conclusion: that it has stopped, with the reason, if and only if the session stands at a line; a
message and that this has stopped it, if and only if it cannot go on; the prompt, if and only if it
waits for input; that it is over, if and only if it is. No event at all comes of a request if and
only if it goes on before the launch or launches once more, which is an error and changes
nothing. -/
theorem events_tell_the_state {assembler : Assembler} {s u : Session} {r : Request} {fuel : Nat}
    {answer : Except Error Unit} (hacts : r.Acts s)
    (h : s.reply assembler r fuel = some (answer, u)) :
    (r.Untimely s ∧ u = s ∧
        answer = .error (if s.state = .idle then .notLaunched else .alreadyLaunched)) ∨
      ¬ r.Untimely s ∧ u.events ≠ s.events ∧ s.Reports (r.faults s assembler) u := by
  have acted (htimely : ¬ r.Untimely s) (hreports : s.Reports (r.faults s assembler) u) :
      ¬ r.Untimely s ∧ u.events ≠ s.events ∧ s.Reports (r.faults s assembler) u :=
    ⟨htimely, hreports.events_ne, hreports⟩
  have stepped (hr : r.Steps) (hfree : r.faults s assembler = [])
      (hlaunches : ∀ readText l, r ≠ .launch readText l) :
      (r.Untimely s ∧ u = s ∧
          answer = .error (if s.state = .idle then .notLaunched else .alreadyLaunched)) ∨
        ¬ r.Untimely s ∧ u.events ≠ s.events ∧ s.Reports (r.faults s assembler) u := by
    by_cases hidle : s.state = .idle
    · obtain ⟨pending, hreply⟩ := hr.reply_eq_resume s assembler
      rw [hreply, resume_of_idle hidle] at h
      cases h
      exact Or.inl ⟨Or.inl ⟨hr, hidle⟩, rfl, by rw [if_pos hidle]⟩
    · refine Or.inr (acted ?_ (hfree ▸ hr.reports hidle h))
      rintro (⟨-, hidle'⟩ | ⟨⟨readText, l, hlaunch⟩, -⟩)
      · exact hidle hidle'
      · exact hlaunches readText l hlaunch
  cases r with
  | launch readText l =>
    by_cases hidle : s.state = .idle
    · refine Or.inr (acted ?_ (launch_reports hidle h))
      rintro (⟨hr, -⟩ | ⟨-, hlaunched⟩)
      · simp [Request.Steps] at hr
      · exact hlaunched hidle
    · have hlate : s.reply assembler (.launch readText l) fuel =
          some (.error .alreadyLaunched, s) := if_pos hidle
      rw [hlate] at h
      cases h
      exact Or.inl ⟨Or.inr ⟨⟨readText, l, rfl⟩, hidle⟩, rfl, by rw [if_neg hidle]⟩
  | run | stepIn | stepOut | next =>
    exact stepped (by simp [Request.Steps]) rfl (fun _ _ => Request.noConfusion)
  | evaluate expression context =>
    obtain ⟨rfl, line, pending, hwaits⟩ := hacts
    have hstart : Starts assembler s (.evaluate expression .repl)
        ⟨s.withInput expression line, line, pending⟩ := .input expression line pending hwaits
    have hafter : s.after assembler (.evaluate expression .repl) fuel = some u := by
      rw [← map_reply, h, Option.map_some]
    refine Or.inr (acted ?_ (hstart.reports ((after_eq_some_iff hstart).mp ⟨fuel, hafter⟩)))
    rintro (⟨hr, -⟩ | ⟨⟨readText, l, hlaunch⟩, -⟩)
    · simp [Request.Steps] at hr
    · cases hlaunch
  | setBreakpoints | terminate | takeEvents => exact hacts.elim

/-- A program that writes a line and then calls for something that the machine does not know. -/
def talkingSource : String :=
  "MAIN START\n LAD GR1,TEXT\n LAD GR2,LEN\n SVC 2\n SVC 9\n RET\nTEXT DC 'hi'\nLEN DC 2\n END\n"

def talkingLaunch : Request := .launch (fun _ => .ok talkingSource) { program := "p.cas" }

/-- Its session tells of the line, and then, by a message and a stop with this message, that the
program cannot go on. -/
theorem failed_program_told_by_message : ∃ u message,
    talkingLaunch.Acts {} ∧ ({} : Session).reply assemble talkingLaunch 8 = some (.ok (), u) ∧
    u.state = .failed 4 ∧ u.events = #[Event.written "hi", .output .stderr (message ++ "\n"),
      .stopped .exception (some message)] := by
  have hrun : (({} : Session).reply assemble talkingLaunch 8).map (fun run =>
      (run.1.toOption, run.2.state, run.2.events.size, run.2.events[0]?)) =
      some (some (), .failed 4, 3, some (Event.written "hi")) := by decide +kernel
  have hfree : talkingLaunch.faults {} assemble = [] := by decide +kernel
  obtain ⟨⟨answer, u⟩, hu, hrun⟩ := Option.map_eq_some_iff.mp hrun
  simp only [Prod.mk.injEq] at hrun
  obtain ⟨haccepted, hstate, hsize, hfirst⟩ := hrun
  obtain rfl : answer = .ok () := by
    cases answer with
    | error e => cases haccepted
    | ok a => rfl
  rcases events_tell_the_state (r := talkingLaunch) (s := {}) trivial hu with
    ⟨-, -, herror⟩ | ⟨-, -, texts, conclusion, hconclusion, -, hevents⟩
  · cases herror
  · obtain ⟨message, rfl⟩ := hconclusion.failed.mp ⟨4, hstate⟩
    rw [hfree, List.map_nil, List.nil_append] at hevents
    have hone : texts.length = 1 := by
      rw [hevents] at hsize
      simpa using hsize
    obtain ⟨text, rfl⟩ := List.length_eq_one_iff.mp hone
    have htext : Event.written text = Event.written "hi" := by
      rw [hevents] at hfirst
      simpa using hfirst
    refine ⟨u, message, trivial, hu, hstate, ?_⟩
    rw [hevents, List.map_singleton, htext]
    rfl

end Comet.Session
