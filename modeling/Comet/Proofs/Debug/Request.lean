import Comet.Proofs.Debug.Events
import Comet.Proofs.Debug.Moment

namespace Comet.Session

/-- What a client asks of a session. Files may change, so a request that reads one brings the files
of its time with it. -/
inductive Request
  | launch (readText : ReadText) (l : Launch)
  | setBreakpoints (readText : ReadText) (path : String) (lines : List Nat)
  | run
  | stepIn
  | stepOut
  | next
  | evaluate (expression : String) (context : EvaluateContext)
  | terminate
  | takeEvents

/-- The session after a request, if `fuel` line steps suffice for it. -/
def after (s : Session) (assembler : Assembler) (r : Request) (fuel : Nat) : Option Session :=
  match r with
  | .launch readText l => (s.launch assembler readText l fuel).map (·.2)
  | .setBreakpoints readText path lines => some (s.setBreakpoints readText path lines).2
  | .run => (s.run fuel).map (·.2)
  | .stepIn => (s.stepIn fuel).map (·.2)
  | .stepOut => (s.stepOut fuel).map (·.2)
  | .next => (s.next fuel).map (·.2)
  | .evaluate expression context => (s.evaluate expression context fuel).map (·.2)
  | .terminate => some s.terminate
  | .takeEvents => some s.takeEvents.2

/-- What a request is answered, and the session after it. That evaluating an expression has a result
is no part of it. -/
def reply (s : Session) (assembler : Assembler) (r : Request) (fuel : Nat) :
    Option (Except Error Unit × Session) :=
  match r with
  | .launch readText l => s.launch assembler readText l fuel
  | .run => s.run fuel
  | .stepIn => s.stepIn fuel
  | .stepOut => s.stepOut fuel
  | .next => s.next fuel
  | .evaluate expression context =>
    (s.evaluate expression context fuel).map fun run => (run.1.map fun _ => (), run.2)
  | .setBreakpoints .. | .terminate | .takeEvents => (s.after assembler r fuel).map (.ok (), ·)

/-- Some requests, one after the other, lead from one session to the other. -/
inductive Reaches (assembler : Assembler) (s : Session) : Session → Prop
  | refl : Reaches assembler s s
  | tail {t u : Session} (r : Request) (fuel : Nat) (h : Reaches assembler s t)
      (hr : t.after assembler r fuel = some u) : Reaches assembler s u

def afterAll (s : Session) (assembler : Assembler) : List (Request × Nat) → Option Session
  | [] => some s
  | (r, fuel) :: rest => (s.after assembler r fuel).bind (·.afterAll assembler rest)

/-- A launch from the session `s` loads a program, which leaves the session `t`. -/
structure Loads (s : Session) (assembler : Assembler) (readText : ReadText) (l : Launch)
    (t : Session) : Prop where
  idle : s.state = .idle
  extension : Path.extension? l.program = some sourceExtension
  loaded : ∃ source stepper, readText l.program = .ok source ∧
    s.stepper.launch (assembler source l.assembly) l.machine = (.ok [], stepper) ∧
    t = { s with stepper, sourceFile := some l.program }

/-- The line of input that a session waits for has been given. -/
def withInput (s : Session) (text : String) (line : Nat) : Session :=
  { s with stepper := s.stepper.setInput text, state := .running line }

/-- The moment at which a request begins to leave lines. -/
inductive Starts (assembler : Assembler) (s : Session) : Request → Moment → Prop
  | launch (readText : ReadText) (l : Launch) (t : Session)
      (hload : s.Loads assembler readText l t) (hentry : l.stopOnEntry = false)
      (hfree : t.hitsBreakpoint 0 = false) :
      Starts assembler s (.launch readText l) ⟨{ t with state := .running 0 }, 0, .run⟩
  | run (line : Nat) (hline : s.standing? = some line) : Starts assembler s .run ⟨s, line, .run⟩
  | stepIn (line : Nat) (hline : s.standing? = some line) :
      Starts assembler s .stepIn ⟨s, line, .stepIn⟩
  | stepOut (line : Nat) (hline : s.standing? = some line) :
      Starts assembler s .stepOut ⟨s, line, .stepOut (s.stepper.stack.depth - 1)⟩
  | next (line : Nat) (hline : s.standing? = some line) :
      Starts assembler s .next ⟨s, line, .next⟩
  | input (text : String) (line : Nat) (pending : Pending)
      (hwaits : s.state = .waiting line pending) :
      Starts assembler s (.evaluate text .repl) ⟨s.withInput text line, line, pending⟩

variable {assembler : Assembler} {s u : Session} {r : Request}

theorem map_reply (s : Session) (assembler : Assembler) (r : Request) (fuel : Nat) :
    (s.reply assembler r fuel).map (·.2) = s.after assembler r fuel := by
  cases r with
  | launch | run | stepIn | stepOut | next => rfl
  | evaluate expression context =>
    simp only [reply, after, Option.map_map]
    rfl
  | setBreakpoints | terminate | takeEvents => rfl

theorem Reaches.trans {t : Session} (h : Reaches assembler s t) (h' : Reaches assembler t u) :
    Reaches assembler s u := by
  induction h' with
  | refl => exact h
  | tail r fuel _ hr ih => exact .tail r fuel ih hr

theorem reaches_of_afterAll {rs : List (Request × Nat)} (h : s.afterAll assembler rs = some u) :
    Reaches assembler s u := by
  induction rs generalizing s with
  | nil =>
    simp only [afterAll, Option.some.injEq] at h
    exact h ▸ .refl
  | cons r rs ih =>
    obtain ⟨t, ht, hrest⟩ := Option.bind_eq_some_iff.mp h
    exact (Reaches.tail r.1 r.2 .refl ht).trans (ih hrest)

theorem exists_map_resume_iff {t : Session} {line : Nat} {pending : Pending} {α : Type}
    (f : Except Error Unit × Session → α) (a : α) (ht : t.standing? = some line) :
    (∃ fuel, (t.resume pending fuel).map f = some a) ↔
      ∃ u, Moment.Ends ⟨t, line, pending⟩ u ∧ f (.ok (), u) = a := by
  simp only [Option.map_eq_some_iff]
  constructor
  · rintro ⟨fuel, ⟨e, u⟩, h, ha⟩
    obtain ⟨rfl, hends⟩ := (t.resume_eq_some_iff line pending e u ht).mp ⟨fuel, h⟩
    exact ⟨u, hends, ha⟩
  · rintro ⟨u, hends, ha⟩
    obtain ⟨fuel, h⟩ := (t.resume_eq_some_iff line pending (.ok ()) u ht).mpr ⟨rfl, hends⟩
    exact ⟨fuel, _, h, ha⟩

theorem launch_of_loads {readText : ReadText} {l : Launch} {t : Session} (fuel : Nat)
    (h : s.Loads assembler readText l t) :
    s.launch assembler readText l fuel =
      if l.stopOnEntry then some (.ok (), t.stop 0 .entry)
      else if t.hitsBreakpoint 0 then some (.ok (), t.stop 0 .breakpoint)
      else ({ t with state := .running 0 }).run fuel := by
  obtain ⟨hidle, hext, source, stepper, hread, hstepper, rfl⟩ := h
  simp only [launch, hidle, hext, hread, hstepper, ne_eq, not_true_eq_false, if_false, begin]

/-- A request that starts answers with the session in which its moments end. -/
theorem after_eq_some_iff {m : Moment} (h : Starts assembler s r m) :
    (∃ fuel, s.after assembler r fuel = some u) ↔ m.Ends u := by
  cases h with
  | launch readText l t hload hentry hfree =>
    have hlaunch (fuel : Nat) : s.after assembler (.launch readText l) fuel =
        (({ t with state := .running 0 } : Session).resume .run fuel).map (·.2) := by
      rw [after, launch_of_loads fuel hload]
      simp only [hentry, hfree, Bool.false_eq_true, if_false, run]
    simp only [hlaunch]
    rw [exists_map_resume_iff _ _ rfl]
    simp
  | run line hline | stepIn line hline | stepOut line hline | next line hline =>
    simp only [after, run, stepIn, stepOut, Session.next]
    rw [exists_map_resume_iff _ _ hline]
    simp
  | input text line pending hwaits =>
    have hevaluate (fuel : Nat) : s.after assembler (.evaluate text .repl) fuel =
        ((s.withInput text line).resume pending fuel).map (·.2) := by
      simp only [after, evaluate, hwaits, withInput, Option.map_map]
      rfl
    simp only [hevaluate]
    rw [exists_map_resume_iff _ _ rfl]
    simp

/-- What has been loaded stops before its first line, or it runs from there. -/
theorem launched_cases {readText : ReadText} {l : Launch} {t : Session} {fuel : Nat}
    {e : Except Error Unit} (hload : s.Loads assembler readText l t)
    (h : s.launch assembler readText l fuel = some (e, u)) :
    e = .ok () ∧
      ((∃ reason, (reason = .entry ∨ (reason = .breakpoint ∧ t.hitsBreakpoint 0 = true)) ∧
          u = t.stop 0 reason) ∨
        ∃ m, Starts assembler s (.launch readText l) m ∧
          m.session = { t with state := .running 0 } ∧ m.Ends u) := by
  rw [launch_of_loads fuel hload] at h
  by_cases hentry : l.stopOnEntry = true
  · rw [if_pos hentry] at h
    cases h
    exact ⟨rfl, Or.inl ⟨.entry, Or.inl rfl, rfl⟩⟩
  rw [if_neg hentry] at h
  by_cases hhits : t.hitsBreakpoint 0 = true
  · rw [if_pos hhits] at h
    cases h
    exact ⟨rfl, Or.inl ⟨.breakpoint, Or.inr ⟨rfl, hhits⟩, rfl⟩⟩
  rw [if_neg hhits] at h
  have hstart := Starts.launch readText l t hload (by simpa using hentry) (by simpa using hhits)
  obtain ⟨he, hends⟩ := (resume_eq_some_iff _ 0 .run e u rfl).mp ⟨fuel, h⟩
  exact ⟨he, Or.inr ⟨_, hstart, rfl, hends⟩⟩

/-- Nothing has happened but that the session may be over. -/
def Settled (s u : Session) : Prop :=
  u.stepper = s.stepper ∧ u.sourceFile = s.sourceFile ∧ (u.state = s.state ∨ u.state = .terminated)

/-- What is wrong with the program that a launch is about to load. -/
def compileErrors (s : Session) (assembler : Assembler) (readText : ReadText) (l : Launch) :
    List Diagnostic :=
  if s.state = .idle ∧ Path.extension? l.program = some sourceExtension then
    match readText l.program with
    | .ok source => (assembler source l.assembly).diagnostics
    | .error _ => []
  else []

/-- The ways in which a launch that loads no program is answered. One that comes too late changes
nothing; any other ends the session, once it has told what is wrong with the program. -/
inductive Declines (s : Session) (assembler : Assembler) (readText : ReadText) (l : Launch) :
    Except Error Unit → Session → Prop
  | late (hlaunched : s.state ≠ .idle) :
      Declines s assembler readText l (.error .alreadyLaunched) s
  | refused (hidle : s.state = .idle) (hfree : s.compileErrors assembler readText l = [])
      (e : Error) : Declines s assembler readText l (.error e) s.terminate
  | diagnosed (hidle : s.state = .idle) (hfaulty : s.compileErrors assembler readText l ≠ []) :
      Declines s assembler readText l (.ok ())
        { s with
          events := s.events ++ ((s.compileErrors assembler readText l).map Event.reported).toArray
        }.terminate

theorem launch_declines {readText : ReadText} {l : Launch} {fuel : Nat}
    {e : Except Error Unit} (h : s.launch assembler readText l fuel = some (e, u)) :
    (∃ t, s.Loads assembler readText l t) ∨ s.Declines assembler readText l e u := by
  unfold launch at h
  by_cases hidle : s.state ≠ .idle
  · rw [if_pos hidle] at h
    simp only [Option.some.injEq, Prod.mk.injEq] at h
    obtain ⟨rfl, rfl⟩ := h
    exact Or.inr (.late hidle)
  rw [if_neg hidle] at h
  simp only [ne_eq, Decidable.not_not] at hidle
  by_cases hext : Path.extension? l.program ≠ some sourceExtension
  · rw [if_pos hext] at h
    simp only [Option.some.injEq, Prod.mk.injEq] at h
    obtain ⟨rfl, rfl⟩ := h
    exact Or.inr (.refused hidle (by simp [compileErrors, hext]) _)
  rw [if_neg hext] at h
  simp only [ne_eq, Decidable.not_not] at hext
  cases hread : readText l.program with
  | error e' =>
    simp only [hread, Option.some.injEq, Prod.mk.injEq] at h
    obtain ⟨rfl, rfl⟩ := h
    exact Or.inr (.refused hidle (by simp [compileErrors, hread]) _)
  | ok source =>
    have herrors : s.compileErrors assembler readText l =
        (assembler source l.assembly).diagnostics := by
      simp [compileErrors, hidle, hext, hread]
    simp only [hread] at h
    rcases s.stepper.launch_cases (assembler source l.assembly) l.machine with
      ⟨p, m, entry, -, -, -, -, hlaunch⟩ | ⟨hfailed, hsame⟩
    · exact Or.inl ⟨_, hidle, hext, source, _, hread, hlaunch, rfl⟩
    · refine Or.inr ?_
      have hanswer := s.stepper.launch_answer (assembler source l.assembly) l.machine
      generalize s.stepper.launch (assembler source l.assembly) l.machine = x
        at h hfailed hsame hanswer
      obtain ⟨result, stepper⟩ := x
      simp only at hsame
      subst hsame
      rcases result with e' | (_ | ⟨d, ds⟩)
      · simp only [Option.some.injEq, Prod.mk.injEq] at h
        obtain ⟨rfl, rfl⟩ := h
        exact .refused hidle (herrors.trans hanswer) _
      · exact absurd rfl hfailed
      · simp only [foldl_emit, Option.some.injEq, Prod.mk.injEq] at h
        obtain ⟨rfl, rfl⟩ := h
        simp only at hanswer
        rw [hanswer, ← herrors]
        exact .diagnosed hidle (by rw [herrors, ← hanswer]; exact List.cons_ne_nil d ds)

theorem launch_cases {readText : ReadText} {l : Launch} {fuel : Nat}
    {e : Except Error Unit} (h : s.launch assembler readText l fuel = some (e, u)) :
    (∃ t, s.Loads assembler readText l t) ∨ s.Settled u := by
  refine (launch_declines h).imp_right ?_
  intro hdeclines
  cases hdeclines with
  | late => exact ⟨rfl, rfl, Or.inl rfl⟩
  | refused | diagnosed => exact ⟨rfl, rfl, Or.inr rfl⟩

theorem resume_cases {pending : Pending} {fuel : Nat} {e : Except Error Unit}
    (h : s.resume pending fuel = some (e, u)) :
    (∃ line, s.standing? = some line) ∨ s.Settled u := by
  unfold resume at h
  cases hs : s.state with
  | idle =>
    simp only [hs, Option.some.injEq, Prod.mk.injEq] at h
    exact Or.inr (h.2 ▸ ⟨rfl, rfl, Or.inl rfl⟩)
  | terminated | failed =>
    simp only [hs, Option.some.injEq, Prod.mk.injEq] at h
    exact Or.inr (h.2 ▸ ⟨rfl, rfl, Or.inr rfl⟩)
  | running line | waiting line => exact Or.inl ⟨line, by rw [standing?, hs]⟩

theorem evaluate_cases {expression : String} {context : EvaluateContext} {fuel : Nat}
    {e : Except Error Evaluation} (h : s.evaluate expression context fuel = some (e, u)) :
    (∃ line pending, s.state = .waiting line pending ∧ context = .repl) ∨ u = s := by
  unfold evaluate at h
  split at h
  · exact Or.inl ⟨_, _, by assumption, rfl⟩
  · exact Or.inr (by simpa [eq_comm] using (congrArg (·.map (·.2)) h))
  · refine Or.inr ?_
    split at h <;> simpa [eq_comm] using (congrArg (·.map (·.2)) h)

/-- The ways in which a request is answered: at the end of its moments, by stopping a program just
loaded before its first line, or at once. -/
theorem after_cases {fuel : Nat} (h : s.after assembler r fuel = some u) :
    (∃ m, Starts assembler s r m ∧ m.Ends u) ∨
    (∃ readText l t reason, r = .launch readText l ∧ s.Loads assembler readText l t ∧
      u = t.stop 0 reason) ∨
    s.Settled u := by
  have started (m : Moment) (hm : Starts assembler s r m) :
      ∃ m, Starts assembler s r m ∧ m.Ends u := ⟨m, hm, (after_eq_some_iff hm).mp ⟨fuel, h⟩⟩
  have resumed (pending : Pending)
      (hstarts : ∀ line, s.standing? = some line → Starts assembler s r ⟨s, line, pending⟩)
      (hanswer : (s.resume pending fuel).map (·.2) = some u) :
      (∃ m, Starts assembler s r m ∧ m.Ends u) ∨ s.Settled u := by
    obtain ⟨⟨e, u⟩, hresume, rfl⟩ := Option.map_eq_some_iff.mp hanswer
    rcases resume_cases hresume with ⟨line, hline⟩ | hsettled
    · exact Or.inl (started _ (hstarts line hline))
    · exact Or.inr hsettled
  cases r with
  | launch readText l =>
    obtain ⟨⟨e, u⟩, hlaunch, rfl⟩ := Option.map_eq_some_iff.mp h
    rcases (launch_cases hlaunch).symm with hsettled | ⟨t, hload⟩
    · exact Or.inr (Or.inr hsettled)
    · rcases (launched_cases hload hlaunch).2 with ⟨reason, -, rfl⟩ | ⟨m, hstart, -, hends⟩
      · exact Or.inr (Or.inl ⟨readText, l, t, reason, rfl, hload, rfl⟩)
      · exact Or.inl ⟨m, hstart, hends⟩
  | setBreakpoints readText path lines =>
    simp only [after, setBreakpoints, Option.some.injEq] at h
    exact Or.inr (Or.inr (h ▸ ⟨rfl, rfl, Or.inl rfl⟩))
  | run => exact (resumed _ .run h).imp_right Or.inr
  | stepIn => exact (resumed _ .stepIn h).imp_right Or.inr
  | stepOut => exact (resumed _ .stepOut h).imp_right Or.inr
  | next => exact (resumed _ .next h).imp_right Or.inr
  | evaluate expression context =>
    obtain ⟨⟨e, u⟩, hevaluate, rfl⟩ := Option.map_eq_some_iff.mp h
    rcases evaluate_cases hevaluate with ⟨line, pending, hwaits, rfl⟩ | hsame
    · exact Or.inl (started _ (.input expression line pending hwaits))
    · exact Or.inr (Or.inr (by simp only [hsame]; exact ⟨rfl, rfl, Or.inl rfl⟩))
  | terminate =>
    simp only [after, Option.some.injEq] at h
    exact Or.inr (Or.inr (h ▸ ⟨rfl, rfl, Or.inr rfl⟩))
  | takeEvents =>
    simp only [after, takeEvents, Option.some.injEq] at h
    exact Or.inr (Or.inr (h ▸ ⟨rfl, rfl, Or.inl rfl⟩))

/-- A property of a stepper and the line at which it stands that is kept by leaving lines, by giving
input and by taking output. -/
structure Kept (I : LineStepper → Nat → Prop) : Prop where
  moved : ∀ {t : LineStepper} {line l : Nat}, I t line →
    (t.stepLine line).1 = .ok (.moved (some l)) → I (t.stepLine line).2 l
  input : ∀ {t : LineStepper} {line : Nat} (text : String), I t line → I (t.setInput text) line
  output : ∀ {t : LineStepper} {line : Nat}, I t line → I { t with output := #[] } line

section kept

variable {I : LineStepper → Nat → Prop} {m m' : Moment} {k : Nat}

theorem Kept.at? (hI : Kept I) (h0 : I m.session.stepper m.line) (h : m.at? k = some m') :
    I m'.session.stepper m'.line := by
  refine Moment.at?_invariant (I := fun m => I m.session.stepper m.line) ?_ h0 h
  intro m₁ m₂ h₁ hnext
  obtain ⟨hmoved, hs, -, -⟩ := Moment.next_eq_going hnext
  rw [hs, afterLine_stepper]
  exact hI.output (hI.moved h₁ hmoved)

theorem Kept.ends (hI : Kept I) (h0 : I m.session.stepper m.line) (h : m.Ends u) {line : Nat}
    (hline : u.standing? = some line) : I u.stepper line := by
  obtain ⟨k, m', hat, hrest⟩ := h
  have h' := hI.at? h0 hat
  rcases Moment.next_eq_rest hrest with ⟨l, reason, hmoved, rfl⟩ | ⟨pending, hadvance⟩ | ⟨e, -, rfl⟩
  · simp only [stop_standing?, Option.some.injEq] at hline
    subst hline
    rw [stop_stepper, afterLine_stepper]
    exact hI.output (hI.moved h' hmoved)
  · rcases advance_eq_none hadvance with ⟨e, -, rfl⟩ | ⟨l, -, rfl⟩ | ⟨l, hwaits, rfl⟩ | ⟨-, rfl⟩
    · simp at hline
    · simp at hline
    · obtain ⟨rfl, hsame⟩ := LineStepper.stepLine_waits hwaits
      simp only [wait_standing?, Option.some.injEq] at hline
      subst hline
      rw [wait_stepper, afterLine_stepper, hsame]
      exact hI.output h'
    · simp at hline
  · simp at hline

theorem Settled.standing? (h : s.Settled u) {line : Nat} (hline : u.standing? = some line) :
    s.standing? = some line := by
  rcases h.2.2 with hstate | hstate
  · rwa [Session.standing?, hstate] at hline
  · simp [Session.standing?, hstate] at hline

theorem Kept.starts (hI : Kept I)
    (hload : ∀ {t : Session} {readText : ReadText} {l : Launch}, r = .launch readText l →
      s.Loads assembler readText l t → I t.stepper 0)
    (h0 : ∀ line, s.standing? = some line → I s.stepper line) (h : Starts assembler s r m) :
    I m.session.stepper m.line := by
  cases h with
  | launch readText l t hloads =>
    show I t.stepper 0
    exact hload rfl hloads
  | run line hline | stepIn line hline | stepOut line hline | next line hline =>
    exact h0 line hline
  | input text line pending hwaits =>
    exact hI.input text (h0 line (by rw [Session.standing?, hwaits]))

/-- What a session has at its line before a request, it has after it, if it stands at a line. -/
theorem Kept.after (hI : Kept I)
    (hload : ∀ {t : Session} {readText : ReadText} {l : Launch}, r = .launch readText l →
      s.Loads assembler readText l t → I t.stepper 0)
    (h0 : ∀ line, s.standing? = some line → I s.stepper line) {fuel : Nat}
    (h : s.after assembler r fuel = some u) {line : Nat} (hline : u.standing? = some line) :
    I u.stepper line := by
  rcases after_cases h with
    ⟨m, hstart, hends⟩ | ⟨readText, l, t, reason, rfl, hloads, rfl⟩ | hsettled
  · exact hI.ends (hI.starts hload h0 hstart) hends hline
  · simp only [stop_standing?, Option.some.injEq] at hline
    subst hline
    show I t.stepper 0
    exact hload rfl hloads
  · rw [hsettled.1]
    exact h0 line (hsettled.standing? hline)

theorem Moment.Ends.state_ne_idle (h : m.Ends u) : u.state ≠ .idle := by
  obtain ⟨k, m', -, hrest⟩ := h
  rcases Moment.next_eq_rest hrest with ⟨l, reason, -, rfl⟩ | ⟨pending, hadvance⟩ | ⟨e, -, rfl⟩
  · exact State.noConfusion
  · rcases advance_eq_none hadvance with ⟨e, -, rfl⟩ | ⟨l, -, rfl⟩ | ⟨l, -, rfl⟩ | ⟨-, rfl⟩ <;>
      exact State.noConfusion
  · exact State.noConfusion

theorem after_state_ne_idle (hs : s.state ≠ .idle) {fuel : Nat}
    (h : s.after assembler r fuel = some u) : u.state ≠ .idle := by
  rcases after_cases h with ⟨m, -, hends⟩ | ⟨readText, l, t, reason, -, -, rfl⟩ | ⟨-, -, hstate⟩
  · exact hends.state_ne_idle
  · exact State.noConfusion
  · rcases hstate with hstate | hstate <;> rw [hstate]
    · exact hs
    · exact State.noConfusion

/-- A session that is over stays so. -/
theorem after_of_terminated (hs : s.state = .terminated) {fuel : Nat}
    (h : s.after assembler r fuel = some u) : u.state = .terminated := by
  rcases after_cases h with
    ⟨m, hstart, -⟩ | ⟨readText, l, t, reason, -, hload, -⟩ | ⟨-, -, hstate⟩
  · cases hstart with
    | launch readText l t hload =>
      have hidle := hload.idle
      rw [hs] at hidle
      cases hidle
    | run line hline | stepIn line hline | stepOut line hline | next line hline =>
      simp [Session.standing?, hs] at hline
    | input text line pending hwaits =>
      rw [hs] at hwaits
      cases hwaits
  · have hidle := hload.idle
    rw [hs] at hidle
    cases hidle
  · rcases hstate with hstate | hstate
    · rw [hstate, hs]
    · exact hstate

/-- What every program just loaded has at line 0, all sessions have at their line. -/
theorem Kept.reaches (hI : Kept I)
    (hload : ∀ {s t : Session} {readText : ReadText} {l : Launch},
      s.Loads assembler readText l t → I t.stepper 0)
    (h0 : ∀ line, s.standing? = some line → I s.stepper line) (h : Reaches assembler s u) :
    ∀ line, u.standing? = some line → I u.stepper line := by
  induction h with
  | refl => exact h0
  | tail r fuel _ hr ih => exact fun _ => hI.after (fun _ hloads => hload hloads) ih hr

/-- Once a program has been loaded no other one is, so only the line steps matter. -/
theorem Kept.reaches_of_state_ne_idle (hI : Kept I) (hs : s.state ≠ .idle)
    (h0 : ∀ line, s.standing? = some line → I s.stepper line) (h : Reaches assembler s u) :
    u.state ≠ .idle ∧ ∀ line, u.standing? = some line → I u.stepper line := by
  induction h with
  | refl => exact ⟨hs, h0⟩
  | tail r fuel _ hr ih =>
    refine ⟨after_state_ne_idle ih.1 hr, fun _ => hI.after ?_ ih.2 hr⟩
    exact fun _ hloads => absurd hloads.idle ih.1

end kept

end Comet.Session
