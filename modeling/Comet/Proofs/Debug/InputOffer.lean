import Comet.Proofs.Debug.InputAtHand

namespace Comet

namespace LineStepper

variable {t : LineStepper} {line : Nat}

theorem stepLine_input (h : t.input = none) : (t.stepLine line).2.input = none := by
  cases hp : t.program with
  | none => simpa [stepLine, hp] using h
  | some p =>
    have hleaves := t.stepLine_leaves p line hp
    generalize (t.stepLine line).1 = result, (t.stepLine line).2 = t' at hleaves ⊢
    cases hleaves with
    | start | undecoded | gate => exact h
    | fault => rfl
    | executed => simp

theorem gatedAt_cases (h : t.gatedAt line = true) :
    ∃ p, t.program = some p ∧ p.debug.isEntryLine line = false ∧
      t.machine.nextKind = .ok .input ∧ t.input = none := by
  have hwaits := stepLine_waits_iff_gatedAt.mpr ⟨rfl, h⟩
  cases hp : t.program with
  | none => simp [gatedAt, hp] at h
  | some p => exact ⟨p, rfl, ((stepLine_waits_iff hp).mp hwaits).2⟩

/-- Once it is given a line, the instruction at the gate is executed, and the line is used up. -/
theorem stepLine_setInput (h : t.gatedAt line = true) (text : String) :
    (t.setInput text).executes line = true ∧
      (t.setInput text).peek line = .ok (some .input) ∧
      ((t.setInput text).stepLine line).2.machine =
        (t.machine.stepOn LineQueue.console { input := [text], output := t.output }).machine ∧
      ((t.setInput text).stepLine line).2.input = none := by
  obtain ⟨p, hp, hentry, hkind, -⟩ := gatedAt_cases h
  have hp' : (t.setInput text).program = some p := hp
  have hkind' : (t.setInput text).machine.nextKind = .ok .input := hkind
  have hentry' : (t.setInput text).isEntryLine line = false := by simp [isEntryLine, hp', hentry]
  have hopen : ¬ (t.setInput text).Gated .input := fun hgated => by cases hgated.2
  have hexecutes : (t.setInput text).executes line = true := by
    simp [executes, hentry', hp', hkind', hopen]
  have hpeek : (t.setInput text).peek line = .ok (some .input) := by
    simp [peek, hp', hentry', hkind']
  have hleaves := (t.setInput text).stepLine_leaves p line hp'
  refine ⟨hexecutes, hpeek, ?_⟩
  generalize ((t.setInput text).stepLine line).1 = result,
    ((t.setInput text).stepLine line).2 = t' at hleaves ⊢
  cases hleaves with
  | start hyes =>
    rw [hentry] at hyes
    cases hyes
  | undecoded _ f hundecoded =>
    rw [hkind'] at hundecoded
    cases hundecoded
  | gate _ _ hnone => cases hnone
  | fault => exact ⟨rfl, rfl⟩
  | executed =>
    rw [settle_machine, settle_input]
    exact ⟨rfl, rfl⟩

end LineStepper

namespace Session

/-- The line of input that comes with the request, if it answers a session that waits. -/
def Request.text? : Request → Option String
  | evaluate text .repl => some text
  | _ => none

/-- The session holds no line, and if it waits, then before an input. -/
structure Unsupplied (s : Session) : Prop where
  empty : s.stepper.input = none
  gated : ∀ line pending, s.state = .waiting line pending → s.stepper.gatedAt line = true

section moments

variable {assembler : Assembler} {s u : Session} {r : Request} {m m' : Moment} {k line : Nat}

theorem Moment.next_input (h : m.session.stepper.input = none) :
    m.next.session.stepper.input = none := by
  rcases m.next_stepper with hstepper | ⟨e, -, hstepper⟩
  · rw [hstepper]
    exact LineStepper.stepLine_input h
  · rw [hstepper]
    exact h

theorem Moment.next_waiting {pending : Pending} (h : m.next = .rest u)
    (hwaits : u.state = .waiting line pending) : u.stepper.gatedAt line = true := by
  rcases next_eq_rest h with ⟨l, reason, -, rfl⟩ | ⟨pending', hadvance⟩ | ⟨e, -, rfl⟩
  · cases hwaits
  · rcases advance_eq_none hadvance with ⟨e, -, rfl⟩ | ⟨l, -, rfl⟩ | ⟨l, hgate, rfl⟩ | ⟨-, rfl⟩
    · cases hwaits
    · cases hwaits
    · have hline : l = line := (State.waiting.inj hwaits).1
      obtain ⟨hl, hsame⟩ := LineStepper.stepLine_waits hgate
      have hgated := (LineStepper.stepLine_waits_iff_gatedAt.mp hgate).2
      rw [wait_stepper, afterLine_stepper, hsame, ← hline, hl]
      exact hgated
    · cases hwaits
  · cases hwaits

theorem Starts.input_eq (h : Starts assembler s r m) (hs : s.Unsupplied) :
    m.session.stepper.input = r.text? := by
  cases h with
  | launch readText l t hload =>
    obtain ⟨p, m, entry, hstepper⟩ := hload.stepper_eq
    show t.stepper.input = none
    rw [hstepper]
  | run | stepIn | stepOut | next => exact hs.empty
  | input => rfl

/-- The first line of a request uses up the line of input that came with it. -/
theorem Starts.next_input (h : Starts assembler s r m) (hs : s.Unsupplied) :
    m.next.session.stepper.input = none := by
  have hinput := h.input_eq hs
  cases h with
  | launch | run | stepIn | stepOut | next => exact Moment.next_input hinput
  | input text line pending hwaits =>
    obtain ⟨-, hpeek, -, hnone⟩ := LineStepper.stepLine_setInput (hs.gated line pending hwaits) text
    rcases Moment.next_stepper ⟨s.withInput text line, line, pending⟩ with
      hstepper | ⟨e, herror, -⟩
    · rw [hstepper]
      exact hnone
    · have hlooked : (s.withInput text line).stepper.peek line = .ok (some .input) := hpeek
      rw [hlooked] at herror
      cases herror

theorem Starts.at?_input (h : Starts assembler s r m) (hs : s.Unsupplied)
    (hat : m.at? k = some m') : m'.session.stepper.input = if k = 0 then r.text? else none := by
  cases k with
  | zero =>
    simp only [Moment.at?, Option.some.injEq] at hat
    rw [← hat, h.input_eq hs, if_pos rfl]
  | succ k =>
    rw [Moment.at?_succ] at hat
    cases hnext : m.next with
    | rest u => simp [hnext] at hat
    | going m₁ =>
      rw [hnext] at hat
      have hfirst := h.next_input hs
      rw [hnext] at hfirst
      rw [if_neg (Nat.succ_ne_zero k)]
      refine Moment.at?_invariant (I := fun m => m.session.stepper.input = none) ?_ hfirst hat
      intro m₁ m₂ hnone hgoing
      have hlater := Moment.next_input hnone
      rwa [hgoing] at hlater

theorem Starts.unsupplied (h : Starts assembler s r m) (hs : s.Unsupplied) (hends : m.Ends u) :
    u.Unsupplied := by
  obtain ⟨k, m', hat, hrest⟩ := hends
  refine ⟨?_, fun line pending hwaits => Moment.next_waiting hrest hwaits⟩
  have hlast : m'.next.session.stepper.input = none := by
    cases k with
    | zero =>
      simp only [Moment.at?, Option.some.injEq] at hat
      exact hat ▸ h.next_input hs
    | succ k => exact Moment.next_input (by rw [h.at?_input hs hat, if_neg (Nat.succ_ne_zero k)])
  rwa [hrest] at hlast

theorem Unsupplied.after {fuel : Nat} (hs : s.Unsupplied)
    (h : s.after assembler r fuel = some u) : u.Unsupplied := by
  rcases after_cases h with ⟨m, hstart, hends⟩ | ⟨readText, l, t, reason, -, hload, rfl⟩ | hsettled
  · exact hstart.unsupplied hs hends
  · obtain ⟨p, m, entry, hstepper⟩ := hload.stepper_eq
    refine ⟨?_, fun line pending hwaits => by cases hwaits⟩
    rw [stop_stepper, hstepper]
  · obtain ⟨hstepper, -, hstate⟩ := hsettled
    refine ⟨by rw [hstepper]; exact hs.empty, ?_⟩
    intro line pending hwaits
    rw [hstepper]
    rcases hstate with hstate | hstate
    · exact hs.gated line pending (hstate ▸ hwaits)
    · rw [hstate] at hwaits
      cases hwaits

theorem unsupplied_of_reaches (h : Reaches assembler {} s) : s.Unsupplied := by
  induction h with
  | refl => exact ⟨rfl, fun line pending hwaits => by cases hwaits⟩
  | tail r fuel _ hr ih => exact ih.after hr

end moments

/-- The request gives the line of input to the very instruction before which the session waits, on a
console that has this line and no other, and what is left behind is no line. -/
structure Offers (s : Session) (text : String) (line : Nat) (m : Moment) : Prop where
  atLine : m.line = line
  machine : m.session.stepper.machine = s.stepper.machine
  supplied : m.session.stepper.input = some text
  executes : m.session.stepper.executes line = true
  executed : m.next.session.stepper.machine =
    (s.stepper.machine.stepOn LineQueue.console { input := [text] }).machine
  emptied : m.next.session.stepper.input = none

/-- No line of input stays behind, and none is offered twice or to another instruction than the one
that has waited for it. A session that waits stands before an input and not at a START line; between
requests it holds no line; an answer is offered to the instruction that waits; and at no other
moment of any request does an instruction find a line. -/
theorem input_offered_once_to_waiting_instruction {assembler : Assembler} {s : Session}
    (hreaches : Reaches assembler {} s) :
    s.stepper.input = none ∧
    (∀ line pending, s.state = .waiting line pending →
      s.stepper.isEntryLine line = false ∧ s.stepper.machine.nextKind = .ok .input ∧
        ∀ text, ∃ m, Starts assembler s (.evaluate text .repl) m ∧ s.Offers text line m) ∧
    ∀ r m k m', Starts assembler s r m → m.at? k = some m' →
      ∀ text, m'.session.stepper.input = some text ↔ k = 0 ∧ r = .evaluate text .repl := by
  have hs := unsupplied_of_reaches hreaches
  refine ⟨hs.empty, ?_, ?_⟩
  · intro line pending hwaits
    have hgated := hs.gated line pending hwaits
    obtain ⟨p, hp, hentry, hkind, -⟩ := LineStepper.gatedAt_cases hgated
    refine ⟨by simp [LineStepper.isEntryLine, hp, hentry], hkind, ?_⟩
    intro text
    obtain ⟨hexecutes, hpeek, hmachine, hnone⟩ := LineStepper.stepLine_setInput hgated text
    rw [output_of_reaches hreaches] at hmachine
    have hstart : Starts assembler s (.evaluate text .repl)
        ⟨s.withInput text line, line, pending⟩ := .input text line pending hwaits
    refine ⟨_, hstart, rfl, rfl, rfl, hexecutes, ?_, hstart.next_input hs⟩
    rcases Moment.next_stepper ⟨s.withInput text line, line, pending⟩ with
      hstepper | ⟨e, herror, -⟩
    · rw [hstepper]
      exact hmachine
    · have hlooked : (s.withInput text line).stepper.peek line = .ok (some .input) := hpeek
      rw [hlooked] at herror
      cases herror
  · intro r m k m' hstart hat text
    rw [hstart.at?_input hs hat]
    by_cases hk : k = 0
    · rw [if_pos hk]
      constructor
      · intro htext
        refine ⟨hk, ?_⟩
        unfold Request.text? at htext
        split at htext
        · rw [Option.some.inj htext]
        · cases htext
      · rintro ⟨-, rfl⟩
        rfl
    · simp [hk]

/-- The program that reads in its second block, stopped before this input by a step over a call. -/
def waitingSession : Session := (readingSession.after assemble .next 8).getD {}

theorem reaches_waitingSession : Reaches assemble {} waitingSession := by
  have hreached : (({} : Session).afterAll assemble readingRequests).isSome = true := by
    decide +kernel
  obtain ⟨s, hs⟩ := Option.isSome_iff_exists.mp hreached
  have hsame : s = readingSession := by rw [readingSession, hs]; rfl
  have hreaches : Reaches assemble {} readingSession := hsame ▸ reaches_of_afterAll hs
  have hnext : (readingSession.after assemble .next 8).isSome = true := by decide +kernel
  obtain ⟨t, ht⟩ := Option.isSome_iff_exists.mp hnext
  have hsame' : t = waitingSession := by rw [waitingSession, ht]; rfl
  exact hsame' ▸ hreaches.tail .next 8 ht

/-- Its answer goes to the input in the second block, and no instruction behind it finds a line. -/
theorem called_block_offered_its_answer : ∃ m, waitingSession.state = .waiting 5 (.stepOut 1) ∧
    waitingSession.stepper.input = none ∧ waitingSession.stepper.machine.nextKind = .ok .input ∧
    Starts assemble waitingSession (.evaluate "hi" .repl) m ∧ waitingSession.Offers "hi" 5 m ∧
    ∀ k m', m.at? (k + 1) = some m' → ∀ text, m'.session.stepper.input ≠ some text := by
  have hwaits : waitingSession.state = .waiting 5 (.stepOut 1) := by decide +kernel
  obtain ⟨hempty, hwaiting, honly⟩ := input_offered_once_to_waiting_instruction
    reaches_waitingSession
  obtain ⟨-, hkind, hoffers⟩ := hwaiting 5 (.stepOut 1) hwaits
  obtain ⟨m, hstart, hoffer⟩ := hoffers "hi"
  refine ⟨m, hwaits, hempty, hkind, hstart, hoffer, ?_⟩
  intro k m' hat text hholds
  exact Nat.succ_ne_zero k ((honly _ m (k + 1) m' hstart hat text).mp hholds).1

end Session

end Comet
