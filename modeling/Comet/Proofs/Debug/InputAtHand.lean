import Comet.Proofs.Debug.Goal
import Comet.Proofs.Debug.Position

/-! Requests that wait for input, against a run that never does. A client makes a request and
answers the session each time it waits; a run in which every input finds the next string at once
comes to the same end. So nothing but what is pending has to be kept while a session waits. -/
namespace Comet

namespace LineStepper

variable {t : LineStepper} {line : Nat}

/-- Leaving the line needs an input for which there is no line yet. -/
def gatedAt (t : LineStepper) (line : Nat) : Bool :=
  t.program.isSome && !t.isEntryLine line && t.input.isNone && match t.machine.nextKind with
    | .ok .input => true
    | _ => false

theorem stepLine_waits_iff_gatedAt {l : Nat} :
    (t.stepLine line).1 = .ok (.waits l) ↔ l = line ∧ t.gatedAt line = true := by
  cases hp : t.program with
  | none => simp [stepLine, gatedAt, hp]
  | some p =>
    have hentry : t.isEntryLine line = p.debug.isEntryLine line := by rw [isEntryLine, hp]
    have hkind : (match t.machine.nextKind with
        | .ok .input => true
        | _ => false) = true ↔ t.machine.nextKind = .ok .input := by
      rcases t.machine.nextKind with f | kind
      · simp
      · cases kind <;> simp
    rw [stepLine_waits_iff hp]
    simp only [gatedAt, hp, hentry, Option.isSome_some, Bool.true_and, Bool.and_eq_true,
      Bool.not_eq_true', hkind, Option.isNone_iff_eq_none]
    constructor
    · rintro ⟨hl, hno, hinput, hnone⟩
      exact ⟨hl, ⟨hno, hnone⟩, hinput⟩
    · rintro ⟨hl, ⟨hno, hnone⟩, hinput⟩
      exact ⟨hl, hno, hinput, hnone⟩

theorem gatedAt_setInput (text : String) : (t.setInput text).gatedAt line = false := by
  simp [gatedAt, setInput]

end LineStepper

namespace Session

/-- All events but the prompts for input. -/
def told (events : Array Event) : List Event :=
  events.toList.filter fun
    | .output .console _ => false
    | _ => true

theorem told_append (xs ys : Array Event) : told (xs ++ ys) = told xs ++ told ys := by
  simp [told]

theorem stdoutTexts_of_told {xs ys : Array Event} (h : told xs = told ys) :
    stdoutTexts xs = stdoutTexts ys := by
  have htexts (events : Array Event) : stdoutTexts events = stdoutTexts (told events).toArray := by
    rw [stdoutTexts, stdoutTexts, told, List.filterMap_filter]
    congr 1
    funext e
    rcases e with ⟨reason, description⟩ | _ | ⟨_ | _ | _, text⟩ <;> rfl
  rw [htexts xs, htexts ys, h]

/-- An input that finds no line is given the next of the strings. -/
def feed (s : Session) (line : Nat) : List String → Session × List String
  | [] => (s, [])
  | text :: rest =>
    if s.stepper.gatedAt line then ({ s with stepper := s.stepper.setInput text }, rest)
    else (s, text :: rest)

/-- One line of a request that was made in the session `s₀`, which stops where its aim says. -/
def lineOf (s₀ : Session) (r : Request) (s : Session) (line : Nat) : Progress :=
  match s.advance line .run with
  | (none, s) => .rest s
  | (some next, s) => match s₀.goal? r s next with
    | some reason => .rest (s.stop next reason)
    | none => .going ⟨s, next, .run⟩

/-- The request with all input at hand. It waits only when the strings are used up. -/
def runFed (s₀ : Session) (r : Request) (s : Session) (line : Nat) (inputs : List String) :
    (fuel : Nat) → Option (Session × List String)
  | 0 => none
  | fuel + 1 =>
    let (s, left) := s.feed line inputs
    match s₀.lineOf r s line with
    | .rest s => some (s, left)
    | .going m => runFed s₀ r m.session m.line left fuel

def requestFed (s : Session) (r : Request) (inputs : List String) (fuel : Nat) :
    Option (Session × List String) :=
  match s.standing? with
  | some line => s.runFed r s line inputs fuel
  | none => some (if s.state = .idle then s else s.terminate, inputs)

/-- A client answers the session with the next of the strings each time it waits, as long as there
are strings. The answers that the client gets, the session at the end and the strings left are
told. -/
inductive Answers : Session → List String → List (Except Error Evaluation) → Session →
    List String → Prop
  | silent {s : Session} {inputs : List String}
      (h : ∀ line pending, s.state ≠ .waiting line pending) : Answers s inputs [] s inputs
  | exhausted {s : Session} : Answers s [] [] s []
  | answered {s t u : Session} {line fuel : Nat} {pending : Pending} {text : String}
      {rest left : List String} {answer : Except Error Evaluation}
      {answers : List (Except Error Evaluation)} (hwaits : s.state = .waiting line pending)
      (h : s.evaluate text .repl fuel = some (answer, t)) (hrest : Answers t rest answers u left) :
      Answers s (text :: rest) (answer :: answers) u left

/-- The request has ended in both sessions in the same way and with the same events, apart from the
prompts. -/
structure EndsAlike (s₀ : Session) (r : Request) (u v : Session) : Prop extends
    EndsAt s₀ r u v where
  told : told u.events = told v.events

theorem EndsAlike.of_told {s₀ u v : Session} {r : Request} (hstepper : u.stepper = v.stepper)
    (hstate : u.state.unpending = v.state.unpending)
    (htold : Session.told u.events = Session.told v.events)
    (hreason : ∀ line, u.state = .running line →
      ∃ reason, s₀.goal? r v line = some reason ∧
        u.events.back? = some (.stopped reason none)) : EndsAlike s₀ r u v :=
  ⟨⟨⟨by rw [hstepper], by rw [hstepper], hstate, currentLine_congr hstate,
    stdoutTexts_of_told htold⟩, hreason⟩, htold⟩

/-- The run with input at hand is where the moment is. -/
structure Shadows (v : Session) (m : Moment) : Prop where
  stepper : v.stepper = m.session.stepper
  breakpoints : v.breakpoints = m.session.breakpoints
  sourceFile : v.sourceFile = m.session.sourceFile
  output : m.session.stepper.output = #[]
  told : Session.told v.events = Session.told m.session.events

section feed

variable {s₀ s u v : Session} {r : Request} {m : Moment} {line : Nat} {inputs : List String}

theorem feed_of_not_gated (h : s.stepper.gatedAt line = false) :
    s.feed line inputs = (s, inputs) := by
  cases inputs with
  | nil => rfl
  | cons text rest => simp [feed, h]

theorem feed_of_gated (h : s.stepper.gatedAt line = true) (text : String) (rest : List String) :
    s.feed line (text :: rest) = ({ s with stepper := s.stepper.setInput text }, rest) := by
  simp [feed, h]

theorem Shadows.afterLine (h : v.Shadows m) :
    (v.afterLine m.line).stepper = (m.session.afterLine m.line).stepper ∧
      Session.told (v.afterLine m.line).events =
        Session.told (m.session.afterLine m.line).events := by
  refine ⟨?_, ?_⟩
  · rw [afterLine_stepper, afterLine_stepper, h.stepper]
  · simp only [Session.afterLine, passOutput_eq, told_append, h.stepper, h.told]

/-- A line that needs no input that is missing is left alike in both. -/
theorem Shadows.step (hserves : Serves s₀ r m) (h : v.Shadows m)
    (hopen : m.session.stepper.gatedAt m.line = false) :
    (∃ u v', m.next = .rest u ∧ s₀.lineOf r v m.line = .rest v' ∧ EndsAlike s₀ r u v' ∧
      ∀ line pending, u.state ≠ .waiting line pending) ∨
    ∃ m' v', m.next = .going m' ∧ s₀.lineOf r v m.line = .going ⟨v', m'.line, .run⟩ ∧
      Serves s₀ r m' ∧ v'.Shadows m' := by
  obtain ⟨hstepper, htold⟩ := h.afterLine
  by_cases hmoved : ∃ next, (m.session.stepper.stepLine m.line).1 = .ok (.moved (some next))
  · obtain ⟨next, hmoved⟩ := hmoved
    have hadvance : v.advance m.line .run = (some next, v.afterLine m.line) :=
      advance_of_moved (by rw [h.stepper, hmoved])
    have hbreakpoints : (v.afterLine m.line).breakpoints =
        (m.session.afterLine m.line).breakpoints := by
      rw [afterLine_breakpoints, afterLine_breakpoints, h.breakpoints]
    have hfile : (v.afterLine m.line).sourceFile = (m.session.afterLine m.line).sourceFile := by
      rw [afterLine_sourceFile, afterLine_sourceFile, h.sourceFile]
    have hgoal : s₀.goal? r (v.afterLine m.line) next =
        s₀.goal? r (m.session.afterLine m.line) next := goal?_congr hstepper hbreakpoints hfile
    cases hserves.nears hmoved with
    | there reason hreason hnext =>
      have hline : s₀.lineOf r v m.line = .rest ((v.afterLine m.line).stop next reason) := by
        simp only [lineOf, hadvance, hgoal, hreason]
      have htold' : Session.told ((m.session.afterLine m.line).stop next reason).events =
          Session.told ((v.afterLine m.line).stop next reason).events := by
        rw [stop_events, stop_events, told_append, told_append, htold]
      refine Or.inl ⟨_, _, hnext, hline, EndsAlike.of_told ?_ rfl htold' ?_, nofun⟩
      · rw [stop_stepper, stop_stepper, hstepper]
      · intro line hline
        have hline : next = line := State.running.inj hline
        refine ⟨reason, ?_, Array.back?_push⟩
        rw [← hline, ← hreason, ← hgoal]
        exact goal?_congr rfl rfl rfl
    | nearer pending hnone hnext hserves' =>
      have hline : s₀.lineOf r v m.line = .going ⟨v.afterLine m.line, next, .run⟩ := by
        simp only [lineOf, hadvance, hgoal, hnone]
      refine Or.inr ⟨_, _, hnext, hline, hserves', hstepper, hbreakpoints, hfile, ?_, htold⟩
      rw [afterLine_stepper]
  · obtain ⟨u, hnext, hadvance⟩ :=
      Moment.next_of_not_moved h.output fun next hnext => hmoved ⟨next, hnext⟩
    obtain ⟨v', es, hv', hstepper', hstate, huevents, hvevents⟩ :=
      advance_none_congr .run h.stepper hadvance
    have hline : s₀.lineOf r v m.line = .rest v' := by simp only [lineOf, hv']
    have htold' : Session.told u.events = Session.told v'.events := by
      rw [huevents, hvevents, told_append, told_append, htold]
    refine Or.inl ⟨u, v', hnext, hline, EndsAlike.of_told hstepper'.symm hstate.symm htold' ?_, ?_⟩
    · intro line hline
      exact absurd hline (state_ne_running_of_advance hadvance line)
    · intro line pending hwaits
      rcases advance_eq_none hadvance with
        ⟨e, -, rfl⟩ | ⟨l, -, rfl⟩ | ⟨l, hresult, rfl⟩ | ⟨-, rfl⟩
      · cases hwaits
      · cases hwaits
      · have hgated := (LineStepper.stepLine_waits_iff_gatedAt.mp hresult).2
        rw [hopen] at hgated
        cases hgated
      · cases hwaits

/-- At a gate the session waits, and has kept all that the request still needs. -/
theorem Shadows.gated (h : v.Shadows m) (hgate : m.session.stepper.gatedAt m.line = true) :
    m.next = .rest (m.session.wait m.line m.pending) ∧
      v.advance m.line .run = (none, v.wait m.line .run) := by
  have hwaits : (m.session.stepper.stepLine m.line).1 = .ok (.waits m.line) :=
    LineStepper.stepLine_waits_iff_gatedAt.mpr ⟨rfl, hgate⟩
  have hsame := (LineStepper.stepLine_waits hwaits).2
  constructor
  · obtain ⟨u, hnext, hadvance⟩ := Moment.next_of_not_moved h.output fun next hmoved => by
      rw [hwaits] at hmoved
      cases hmoved
    rw [advance_of_waits hwaits, afterLine_of_same hsame h.output] at hadvance
    rw [hnext, (Prod.mk.inj hadvance).2]
  · rw [← h.stepper] at hwaits hsame
    rw [advance_of_waits hwaits, afterLine_of_same hsame (by rw [h.stepper, h.output])]

/-- The moment at which a session that waited goes on. -/
def Moment.answered (m : Moment) (text : String) : Moment :=
  ⟨(m.session.wait m.line m.pending).withInput text m.line, m.line, m.pending⟩

theorem Serves.answered (h : Serves s₀ r m) (text : String) : Serves s₀ r (m.answered text) := by
  cases h with
  | run => exact .run
  | stepIn => exact .stepIn
  | stepOut hdepth => exact .stepOut hdepth
  | next hcalls hdepth => exact .next hcalls hdepth
  | entered hcalls => exact .entered hcalls

theorem Shadows.answered (h : v.Shadows m) (text : String) :
    ({ v with stepper := v.stepper.setInput text } : Session).Shadows (m.answered text) := by
  refine ⟨?_, h.breakpoints, h.sourceFile, h.output, ?_⟩
  · show v.stepper.setInput text = m.session.stepper.setInput text
    rw [h.stepper]
  · show Session.told v.events = Session.told (m.session.wait m.line m.pending).events
    rw [wait_events, told_append, h.told]
    exact (List.append_nil _).symm

theorem gatedAt_answered (m : Moment) (text : String) :
    (m.answered text).session.stepper.gatedAt (m.answered text).line = false :=
  LineStepper.gatedAt_setInput text

theorem evaluate_eq_some_iff {line : Nat} {pending : Pending} {text : String}
    {answer : Except Error Evaluation} (hwaits : s.state = .waiting line pending) :
    (∃ fuel, s.evaluate text .repl fuel = some (answer, u)) ↔
      answer = .ok .inputAccepted ∧ Moment.Ends ⟨s.withInput text line, line, pending⟩ u := by
  have hevaluate (fuel : Nat) : s.evaluate text .repl fuel =
      ((s.withInput text line).resume pending fuel).map fun reply =>
        (reply.1.map fun _ => .inputAccepted, reply.2) := by
    simp only [evaluate, hwaits, withInput]
  simp only [hevaluate]
  rw [exists_map_resume_iff _ _ rfl]
  constructor
  · rintro ⟨u', hends, heq⟩
    simp only [Prod.mk.injEq] at heq
    obtain ⟨rfl, rfl⟩ := heq
    exact ⟨rfl, hends⟩
  · rintro ⟨rfl, hends⟩
    exact ⟨u, hends, rfl⟩

end feed

section conversation

variable {s₀ s t u v : Session} {r : Request} {m : Moment} {inputs left : List String}
  {line : Nat} {answers : List (Except Error Evaluation)}

theorem Shadows.gatedAt_eq (h : v.Shadows m) :
    v.stepper.gatedAt m.line = m.session.stepper.gatedAt m.line := by
  rw [h.stepper]

/-- A request comes to rest at a gate, or where the run with input at hand does. -/
theorem Shadows.of_rest (hserves : Serves s₀ r m) (h : v.Shadows m) (hrest : m.next = .rest t) :
    (m.session.stepper.gatedAt m.line = true ∧ t = m.session.wait m.line m.pending) ∨
    (m.session.stepper.gatedAt m.line = false ∧ (∀ line pending, t.state ≠ .waiting line pending) ∧
      ∃ w, s₀.lineOf r v m.line = .rest w ∧ EndsAlike s₀ r t w) := by
  cases hgate : m.session.stepper.gatedAt m.line with
  | true =>
    have hwait := (h.gated hgate).1
    rw [hrest, Progress.rest.injEq] at hwait
    exact Or.inl ⟨rfl, hwait⟩
  | false =>
    rcases h.step hserves hgate with ⟨u, w, hnext, hline, hends, hover⟩ | ⟨m', w, hnext, -⟩
    · rw [hrest, Progress.rest.injEq] at hnext
      subst hnext
      exact Or.inr ⟨rfl, hover, w, hline, hends⟩
    · rw [hrest] at hnext
      cases hnext

theorem Shadows.lineOf_of_gated (h : v.Shadows m)
    (hgate : m.session.stepper.gatedAt m.line = true) :
    s₀.lineOf r v m.line = .rest (v.wait m.line .run) := by
  simp only [lineOf, (h.gated hgate).2]

/-- Without a string left both wait. -/
theorem Shadows.endsAlike_wait (h : v.Shadows m) :
    EndsAlike s₀ r (m.session.wait m.line m.pending) (v.wait m.line .run) := by
  refine .of_told h.stepper.symm rfl ?_ nofun
  rw [wait_events, wait_events, told_append, told_append, h.told]

section runFed

variable {fuel : Nat}

theorem runFed_of_gated (hgate : v.stepper.gatedAt line = true) (text : String)
    (rest : List String) :
    s₀.runFed r v line (text :: rest) fuel =
      s₀.runFed r { v with stepper := v.stepper.setInput text } line rest fuel := by
  cases fuel with
  | zero => rfl
  | succ fuel =>
    rw [runFed, runFed, feed_of_gated hgate, feed_of_not_gated (LineStepper.gatedAt_setInput text)]

theorem runFed_exhausted :
    s₀.runFed r v line [] (fuel + 1) = match s₀.lineOf r v line with
      | .rest w => some (w, [])
      | .going m => s₀.runFed r m.session m.line [] fuel := by
  rw [runFed, feed]

theorem runFed_of_not_gated (hgate : v.stepper.gatedAt line = false) :
    s₀.runFed r v line inputs (fuel + 1) = match s₀.lineOf r v line with
      | .rest w => some (w, inputs)
      | .going m => s₀.runFed r m.session m.line inputs fuel := by
  rw [runFed, feed_of_not_gated hgate]

end runFed

/-- Until the request comes to rest it finds all inputs, so that no string is taken. -/
theorem Shadows.at? {m' : Moment} {k : Nat} (hserves : Serves s₀ r m) (h : v.Shadows m)
    (hat : m.at? k = some m') :
    Serves s₀ r m' ∧ ∃ v', v'.Shadows m' ∧ ∀ fuel inputs,
      s₀.runFed r v m.line inputs (fuel + k) = s₀.runFed r v' m'.line inputs fuel := by
  induction k generalizing m v with
  | zero =>
    obtain rfl : m = m' := Option.some.inj hat
    exact ⟨hserves, v, h, fun fuel inputs => rfl⟩
  | succ k ih =>
    rw [Moment.at?_succ] at hat
    cases hgate : m.session.stepper.gatedAt m.line with
    | true =>
      rw [(h.gated hgate).1] at hat
      cases hat
    | false =>
      rcases h.step hserves hgate with ⟨u, -, hnext, -⟩ | ⟨m₁, v₁, hnext, hline, hserves₁, h₁⟩
      · rw [hnext] at hat
        cases hat
      · rw [hnext] at hat
        obtain ⟨hserves', v', h', hrun⟩ := ih hserves₁ h₁ hat
        refine ⟨hserves', v', h', fun fuel inputs => ?_⟩
        rw [← hrun, ← Nat.add_assoc, runFed_of_not_gated (h.gatedAt_eq.trans hgate), hline]

/-- Where the client's requests end, the run with input at hand ends as well. -/
theorem Shadows.runFed_of_answers (hserves : Serves s₀ r m) (h : v.Shadows m) (hends : m.Ends t)
    (hanswers : Answers t inputs answers u left) :
    (∀ answer ∈ answers, answer = .ok .inputAccepted) ∧
      ∃ fuel w, s₀.runFed r v m.line inputs fuel = some (w, left) ∧ EndsAlike s₀ r u w := by
  -- By induction on the answers: each brings the request to the gate that the next one is for.
  induction hanswers generalizing m v with
  | silent hsilent =>
    obtain ⟨k, m', hat, hrest⟩ := hends
    obtain ⟨hserves', v', h', hrun⟩ := h.at? hserves hat
    rcases h'.of_rest hserves' hrest with ⟨-, rfl⟩ | ⟨hgate, -, w, hline, hends⟩
    · exact absurd rfl (hsilent m'.line m'.pending)
    · refine ⟨by simp, 1 + k, w, ?_, hends⟩
      rw [hrun, runFed_of_not_gated (h'.gatedAt_eq.trans hgate), hline]
  | exhausted =>
    obtain ⟨k, m', hat, hrest⟩ := hends
    obtain ⟨hserves', v', h', hrun⟩ := h.at? hserves hat
    rcases h'.of_rest hserves' hrest with ⟨hgate, rfl⟩ | ⟨hgate, -, w, hline, hends⟩
    · refine ⟨by simp, 1 + k, v'.wait m'.line .run, ?_, h'.endsAlike_wait⟩
      rw [hrun, runFed_exhausted, h'.lineOf_of_gated hgate]
    · refine ⟨by simp, 1 + k, w, ?_, hends⟩
      rw [hrun, runFed_exhausted, hline]
  | @answered t t' u line fuel pending text rest left answer answers hwaits hevaluate hanswers ih =>
    obtain ⟨k, m', hat, hrest⟩ := hends
    obtain ⟨hserves', v', h', hrun⟩ := h.at? hserves hat
    obtain ⟨haccepted, hends⟩ := (evaluate_eq_some_iff hwaits).mp ⟨fuel, hevaluate⟩
    rcases h'.of_rest hserves' hrest with ⟨hgate, rfl⟩ | ⟨-, hsilent, -⟩
    · obtain ⟨rfl, rfl⟩ : m'.line = line ∧ m'.pending = pending := State.waiting.inj hwaits
      obtain ⟨hall, fuel', w, hfed, halike⟩ :=
        ih (hserves'.answered text) (h'.answered text) hends
      refine ⟨?_, fuel' + k, w, ?_, halike⟩
      · intro a ha
        rcases List.mem_cons.mp ha with rfl | ha
        · exact haccepted
        · exact hall a ha
      · rw [hrun, runFed_of_gated (h'.gatedAt_eq.trans hgate)]
        exact hfed
    · exact absurd hwaits (hsilent line pending)

/-- Where the run with input at hand ends, a client can bring the session. -/
theorem Shadows.answers_of_runFed {fuel : Nat} {w : Session} (hserves : Serves s₀ r m)
    (h : v.Shadows m) (hrun : s₀.runFed r v m.line inputs fuel = some (w, left)) :
    ∃ t answers u, m.Ends t ∧ Answers t inputs answers u left ∧ EndsAlike s₀ r u w := by
  induction fuel generalizing m v inputs with
  | zero => cases hrun
  | succ fuel ih =>
    have hopen {m : Moment} {v : Session} {inputs : List String} (hserves : Serves s₀ r m)
        (h : v.Shadows m) (hgate : m.session.stepper.gatedAt m.line = false)
        (hrun : s₀.runFed r v m.line inputs (fuel + 1) = some (w, left)) :
        ∃ t answers u, m.Ends t ∧ Answers t inputs answers u left ∧ EndsAlike s₀ r u w := by
      rw [runFed_of_not_gated (h.gatedAt_eq.trans hgate)] at hrun
      rcases h.step hserves hgate with
        ⟨u, v', hnext, hline, hends, hsilent⟩ | ⟨m', v', hnext, hline, hserves', h'⟩
      · simp only [hline, Option.some.injEq, Prod.mk.injEq] at hrun
        obtain ⟨rfl, rfl⟩ := hrun
        exact ⟨u, [], u, (Moment.ends_of_rest hnext u).mpr rfl, .silent hsilent, hends⟩
      · rw [hline] at hrun
        obtain ⟨t, answers, u, hends, hanswers, halike⟩ := ih hserves' h' hrun
        exact ⟨t, answers, u, (Moment.ends_of_going hnext t).mpr hends, hanswers, halike⟩
    cases hgate : m.session.stepper.gatedAt m.line with
    | false => exact hopen hserves h hgate hrun
    | true =>
      have hwait := (Moment.ends_of_rest (h.gated hgate).1 _).mpr rfl
      cases inputs with
      | nil =>
        rw [runFed_exhausted, h.lineOf_of_gated hgate, Option.some.injEq, Prod.mk.injEq] at hrun
        obtain ⟨rfl, rfl⟩ := hrun
        exact ⟨_, [], _, hwait, .exhausted, h.endsAlike_wait⟩
      | cons text rest =>
        rw [runFed_of_gated (h.gatedAt_eq.trans hgate)] at hrun
        obtain ⟨t, answers, u, hends, hanswers, halike⟩ :=
          hopen (hserves.answered text) (h.answered text) (gatedAt_answered m text) hrun
        obtain ⟨fuel', hevaluate⟩ := (evaluate_eq_some_iff rfl).mpr ⟨rfl, hends⟩
        exact ⟨_, _, u, hwait, .answered rfl hevaluate hanswers, halike⟩

/-- A request that stops without a breakpoint is at the depth that was its aim from the start. -/
theorem EndsAt.depth_eq (h : EndsAt s₀ r u v) {line : Nat} (hline : u.state = .running line)
    (hstep : u.events.back? = some (.stopped .step none)) :
    (r = .stepOut → u.depth + 1 = s₀.depth) ∧
      (r = .next → s₀.calls = true → u.depth = s₀.depth) := by
  obtain ⟨reason, hgoal, hback⟩ := h.reason line hline
  obtain rfl : StopReason.step = reason := by
    rw [hstep, Option.some.injEq, Event.stopped.injEq] at hback
    exact hback.1
  have hdepth : v.depth = u.depth := by rw [depth, depth, h.agrees.stack]
  have hreached {reached : Bool} (hstops : v.stopsAt line reached = some .step) :
      reached = true := by
    unfold stopsAt at hstops
    split at hstops
    · cases hstops
    · split at hstops
      · assumption
      · cases hstops
  constructor
  · rintro rfl
    have hout := hreached hgoal
    rwa [decide_eq_true_eq, hdepth] at hout
  · rintro rfl hcalls
    rw [goal?, if_pos hcalls] at hgoal
    have hover := hreached hgoal
    rwa [decide_eq_true_eq, hdepth] at hover

theorem Request.Steps.after_of_not_standing (hr : r.Steps) (assembler : Assembler)
    (hline : s.standing? = none) (fuel : Nat) :
    s.after assembler r fuel = some (if s.state = .idle then s else s.terminate) := by
  have hresume (pending : Pending) : (s.resume pending fuel).map (·.2) =
      some (if s.state = .idle then s else s.terminate) := by
    unfold resume
    cases hstate : s.state with
    | idle => rfl
    | terminated | failed => rfl
    | running | waiting => simp [standing?, hstate] at hline
  rcases hr with rfl | rfl | rfl | rfl <;> exact hresume _

theorem Answers.eq_of_silent (h : Answers t inputs answers u left)
    (hsilent : ∀ line pending, t.state ≠ .waiting line pending) :
    answers = [] ∧ u = t ∧ left = inputs := by
  cases h with
  | silent | exhausted => exact ⟨rfl, rfl, rfl⟩
  | answered hwaits => exact absurd hwaits (hsilent _ _)

end conversation

/-- Waiting for input changes nothing. Whatever a client asks of a session and answers whenever it
waits, all answers are accepted and the end is that of a run in which every input finds the next
string at once, up to the events apart from the prompts; and each of the two ends if the other
does. In particular the depth at which a request stops is still the one that was fixed when it was
made. -/
theorem waiting_for_input_is_transparent {assembler : Assembler} {s : Session} {r : Request}
    (hreaches : Reaches assembler {} s) (hr : r.Steps) (inputs : List String) :
    (∀ fuel t answers u left, s.after assembler r fuel = some t →
      Answers t inputs answers u left →
      (∀ answer ∈ answers, answer = .ok .inputAccepted) ∧
      (∃ fuel v, s.requestFed r inputs fuel = some (v, left) ∧ EndsAlike s r u v) ∧
      ∀ line, u.state = .running line → u.events.back? = some (.stopped .step none) →
        (r = .stepOut → u.depth + 1 = s.depth) ∧
          (r = .next → s.calls = true → u.depth = s.depth)) ∧
    ∀ fuel v left, s.requestFed r inputs fuel = some (v, left) →
      ∃ fuel t answers u, s.after assembler r fuel = some t ∧ Answers t inputs answers u left ∧
        EndsAlike s r u v := by
  cases hline : s.standing? with
  | some line =>
    obtain ⟨m, hstart, rfl, rfl⟩ := hr.starts assembler hline
    have hserves := hstart.serves hr (depth_pos_of_reaches hreaches hline)
    have hshadows : m.session.Shadows m := ⟨rfl, rfl, rfl, output_of_reaches hreaches, rfl⟩
    simp only [requestFed, hline]
    constructor
    · intro fuel t answers u left hafter hanswers
      have hends := (after_eq_some_iff hstart).mp ⟨fuel, hafter⟩
      obtain ⟨hall, fuel', v, hrun, halike⟩ := hshadows.runFed_of_answers hserves hends hanswers
      exact ⟨hall, ⟨fuel', v, hrun, halike⟩, fun line hline => halike.depth_eq hline⟩
    · intro fuel v left hrun
      obtain ⟨t, answers, u, hends, hanswers, halike⟩ := hshadows.answers_of_runFed hserves hrun
      obtain ⟨fuel', hafter⟩ := (after_eq_some_iff hstart).mpr hends
      exact ⟨fuel', t, answers, u, hafter, hanswers, halike⟩
  | none =>
    have hafter := hr.after_of_not_standing assembler hline
    simp only [requestFed, hline]
    generalize hover : (if s.state = .idle then s else s.terminate) = t at hafter
    have hstanding : t.standing? = none := by
      rw [← hover]
      split
      · exact hline
      · rfl
    have hsilent (line : Nat) (pending : Pending) : t.state ≠ .waiting line pending := by
      intro hwaits
      rw [standing?, hwaits] at hstanding
      cases hstanding
    have hstopped (line : Nat) : t.state ≠ .running line := by
      intro hruns
      rw [standing?, hruns] at hstanding
      cases hstanding
    have halike : EndsAlike s r t t :=
      .of_told rfl rfl rfl fun line hruns => absurd hruns (hstopped line)
    constructor
    · intro fuel t' answers u left hafter' hanswers
      obtain rfl : t = t' := Option.some.inj ((hafter fuel).symm.trans hafter')
      obtain ⟨rfl, rfl, rfl⟩ := hanswers.eq_of_silent hsilent
      exact ⟨by simp, ⟨0, u, rfl, halike⟩, fun line hruns => absurd hruns (hstopped line)⟩
    · intro fuel v left hrun
      simp only [Option.some.injEq, Prod.mk.injEq] at hrun
      obtain ⟨rfl, rfl⟩ := hrun
      exact ⟨0, t, [], t, hafter 0, .silent hsilent, halike⟩

/-- The second block, which the first one calls, reads a line. -/
def readingSource : String :=
  "MAIN START\n CALL SUB\n RET\n END\nSUB START\n IN BUF,LEN\n RET\nBUF DS 8\nLEN DS 1\n END\n"

def readingRequests : List (Request × Nat) :=
  [(.launch (fun _ => .ok readingSource) { program := "p.cas", stopOnEntry := true }, 0),
    (.stepIn, 1)]

def readingSession : Session := (({} : Session).afterAll assemble readingRequests).getD {}

/-- A step over the call waits in the callee, and once it is answered it stops behind the call. -/
theorem call_stepped_over_through_input : ∃ t u v, readingSession.calls = true ∧
    readingSession.after assemble .next 8 = some t ∧ t.currentLine = some 5 ∧
    Answers t ["hi"] [.ok .inputAccepted] u [] ∧ u.state = .running 2 ∧
    u.depth = readingSession.depth ∧
    (∃ fuel, readingSession.requestFed .next ["hi"] fuel = some (v, [])) ∧
    EndsAlike readingSession .next u v := by
  have hreached : (({} : Session).afterAll assemble readingRequests).isSome = true := by
    decide +kernel
  obtain ⟨s, hs⟩ := Option.isSome_iff_exists.mp hreached
  have hsame : s = readingSession := by rw [readingSession, hs]; rfl
  have hreaches : Reaches assemble {} readingSession := hsame ▸ reaches_of_afterAll hs
  have hrun : ((readingSession.after assemble .next 8).bind fun t =>
      (t.evaluate "hi" .repl 8).map fun (answer, u) =>
        (t.state, answer.toOption, u.state, u.events.back?)) =
      some (.waiting 5 (.stepOut 1), some .inputAccepted, .running 2,
        some (.stopped .step none)) := by decide +kernel
  obtain ⟨t, ht, hrun⟩ := Option.bind_eq_some_iff.mp hrun
  obtain ⟨⟨answer, u⟩, hu, hstates⟩ := Option.map_eq_some_iff.mp hrun
  simp only [Prod.mk.injEq] at hstates
  obtain ⟨hwaits, haccepted, hstate, hback⟩ := hstates
  obtain rfl : answer = .ok .inputAccepted := by
    cases answer with
    | error e => cases haccepted
    | ok a => rw [Except.toOption, Option.some.injEq] at haccepted; rw [haccepted]
  have hsilent (line : Nat) (pending : Pending) : u.state ≠ .waiting line pending := by
    rw [hstate]
    exact State.noConfusion
  have hanswers : Answers t ["hi"] [.ok .inputAccepted] u [] :=
    .answered hwaits hu (.silent hsilent)
  have hcalls : readingSession.calls = true := by decide +kernel
  obtain ⟨hends, -⟩ := waiting_for_input_is_transparent (r := .next) hreaches
    (Or.inr (Or.inr (Or.inr rfl))) ["hi"]
  obtain ⟨-, ⟨fuel, v, hfed, halike⟩, hdepth⟩ := hends 8 t _ u [] ht hanswers
  exact ⟨t, u, v, hcalls, ht, by rw [currentLine, hwaits], hanswers, hstate,
    (hdepth 2 hstate hback).2 rfl hcalls, ⟨fuel, hfed⟩, halike⟩

end Session

end Comet
