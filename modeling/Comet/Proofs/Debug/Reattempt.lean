import Comet.Proofs.Debug.InputOffer
import Comet.Proofs.Debug.Waiting

namespace Comet.Session

/-- What a session with so many frames has to go on with after the request, if it asks for that. -/
def Request.pending? (depth : Nat) : Request → Option Pending
  | run => some .run
  | stepIn => some .stepIn
  | stepOut => some (.stepOut (depth - 1))
  | next => some .next
  | _ => none

/-- The request asks the session to go on. -/
def Request.goesOn (r : Request) : Bool := (r.pending? 0).isSome

/-- The request neither gives the program its input nor ends the session. -/
def Request.KeepsGate : Request → Prop
  | evaluate _ .repl | terminate => False
  | _ => True

/-- The session waits for input before the line, and all output has been passed on. -/
structure WaitsAt (s : Session) (line : Nat) : Prop where
  state : ∃ pending, s.state = .waiting line pending
  gated : s.stepper.gatedAt line = true
  passed : s.stepper.output = #[]

/-- What the request leaves behind at the gate. -/
def atGate (s : Session) (line : Nat) (r : Request) : Session :=
  match r.pending? s.depth, r with
  | some pending, _ => s.wait line pending
  | none, .setBreakpoints readText path lines => (s.setBreakpoints readText path lines).2
  | none, .takeEvents => s.takeEvents.2
  | none, _ => s

/-- What the requests of the list leave behind at the gate. -/
def allAtGate (s : Session) (line : Nat) (rs : List (Request × Nat)) : Session :=
  rs.foldl (fun s r => s.atGate line r.1) s

/-- The session without its events and without what is pending in it. -/
def unattempted (s : Session) : Session :=
  { s with state := s.state.unpending, events := #[] }

section gate

variable {assembler : Assembler} {s t : Session} {line fuel : Nat} {r : Request}
  {pending : Pending}

theorem waitsAt_of_reaches (h : Reaches assembler {} s) (hwaits : s.state = .waiting line pending) :
    s.WaitsAt line :=
  ⟨⟨pending, hwaits⟩, (unsupplied_of_reaches h).gated line pending hwaits, output_of_reaches h⟩

theorem WaitsAt.advance (h : s.WaitsAt line) (pending : Pending) :
    s.advance line pending = (none, s.wait line pending) := by
  have hwaits : (s.stepper.stepLine line).1 = .ok (.waits line) :=
    LineStepper.stepLine_waits_iff_gatedAt.mpr ⟨rfl, h.gated⟩
  have hsame : s.afterLine line = s :=
    afterLine_of_same (LineStepper.stepLine_waits hwaits).2 h.passed
  rw [afterLine] at hsame
  simp only [Session.advance, hwaits, hsame]

theorem WaitsAt.runFrom (h : s.WaitsAt line) (pending : Pending) (hfuel : fuel ≠ 0) :
    s.runFrom line pending fuel = some (s.wait line pending) := by
  obtain ⟨n, rfl⟩ := Nat.exists_eq_succ_of_ne_zero hfuel
  rw [Session.runFrom, h.advance]

/-- Looking at the instruction first does not make a step over end elsewhere. -/
theorem WaitsAt.stepOver (h : s.WaitsAt line) (hfuel : fuel ≠ 0) :
    s.stepOver line fuel = some (s.wait line .next) := by
  have hpeek : s.stepper.peek line = .ok (some .input) := by
    obtain ⟨p, hp, hentry, hkind, -⟩ := LineStepper.gatedAt_cases h.gated
    simp [LineStepper.peek, LineStepper.isEntryLine, hp, hentry, hkind]
  simp only [Session.stepOver, hpeek]
  exact h.runFrom .next hfuel

theorem WaitsAt.resume (h : s.WaitsAt line) (pending : Pending) (hfuel : fuel ≠ 0) :
    s.resume pending fuel = some (.ok (), s.wait line pending) := by
  obtain ⟨before, hstate⟩ := h.state
  cases pending with
  | next => simp only [Session.resume, hstate, h.stepOver hfuel, Option.map_some]
  | run | stepIn | stepOut =>
    simp only [Session.resume, hstate, h.runFrom _ hfuel, Option.map_some]

/-- Every request to go on is accepted, and waits before the same line. -/
theorem WaitsAt.reply (h : s.WaitsAt line) (hr : r.pending? s.depth = some pending)
    (hfuel : fuel ≠ 0) :
    s.reply assembler r fuel = some (.ok (), s.wait line pending) := by
  have hresume := h.resume pending hfuel
  cases r with
  | run | stepIn | stepOut | next =>
    obtain rfl := Option.some.inj hr
    exact hresume
  | launch | setBreakpoints | evaluate | terminate | takeEvents => cases hr

theorem WaitsAt.after (h : s.WaitsAt line) (hr : r.KeepsGate) (hfuel : fuel ≠ 0) :
    s.after assembler r fuel = some (s.atGate line r) := by
  obtain ⟨before, hstate⟩ := h.state
  cases r with
  | run | stepIn | stepOut | next =>
    rw [← map_reply, h.reply rfl hfuel]
    rfl
  | launch readText l => simp [Session.after, launch, hstate, atGate, Request.pending?]
  | evaluate expression context =>
    cases context with
    | repl => exact hr.elim
    | hover | other =>
      simp only [Session.after, evaluate, hstate, atGate, Request.pending?]
      split <;> rfl
  | terminate => exact hr.elim
  | setBreakpoints | takeEvents => rfl

theorem atGate_stepper (s : Session) (line : Nat) (r : Request) :
    (s.atGate line r).stepper = s.stepper := by
  unfold atGate
  split <;> rfl

theorem atGate_depth (s : Session) (line : Nat) (r : Request) :
    (s.atGate line r).depth = s.depth := by
  rw [depth, atGate_stepper, depth]

theorem atGate_state (hstate : s.state = .waiting line pending) (r : Request) :
    (s.atGate line r).state = .waiting line ((r.pending? s.depth).getD pending) := by
  cases hpending : r.pending? s.depth with
  | some after =>
    simp only [atGate, hpending]
    rfl
  | none =>
    have hsame : (s.atGate line r).state = s.state := by
      unfold atGate
      rw [hpending]
      cases r <;> rfl
    rw [hsame, hstate, Option.getD_none]

theorem WaitsAt.atGate (h : s.WaitsAt line) (r : Request) : (s.atGate line r).WaitsAt line := by
  obtain ⟨before, hstate⟩ := h.state
  refine ⟨⟨_, atGate_state hstate r⟩, ?_, ?_⟩
  · rw [atGate_stepper]
    exact h.gated
  · rw [atGate_stepper]
    exact h.passed

/-- The session waits through any number of requests. -/
theorem WaitsAt.afterAll {rs : List (Request × Nat)} (h : s.WaitsAt line)
    (hrs : ∀ r ∈ rs, r.1.KeepsGate ∧ r.2 ≠ 0) :
    s.afterAll assembler rs = some (s.allAtGate line rs) := by
  induction rs generalizing s with
  | nil => rfl
  | cons r rs ih =>
    obtain ⟨hkeeps, hfuel⟩ := hrs r List.mem_cons_self
    rw [Session.afterAll, h.after hkeeps hfuel]
    exact ih (h.atGate r.1) fun r' hr' => hrs r' (List.mem_cons_of_mem r hr')

theorem pending?_eq_some (hr : r.goesOn = true) (depth : Nat) :
    ∃ pending, r.pending? depth = some pending := by
  cases r with
  | run | stepIn | stepOut | next => exact ⟨_, rfl⟩
  | launch | setBreakpoints | evaluate | terminate | takeEvents => cases hr

theorem pending?_eq_none (hr : r.goesOn = false) (depth : Nat) : r.pending? depth = none := by
  cases r with
  | run | stepIn | stepOut | next => cases hr
  | launch | setBreakpoints | evaluate | terminate | takeEvents => rfl

theorem unattempted_atGate (hr : r.goesOn = true) (hstate : s.state = .waiting line pending) :
    (s.atGate line r).unattempted = s.unattempted := by
  obtain ⟨after, hafter⟩ := pending?_eq_some hr s.depth
  simp only [atGate, hafter, wait, emit, unattempted, hstate, State.unpending]

/-- What two sessions have in common apart from their events, a request that does not ask to go on
leaves them in common. -/
theorem atGate_congr (f : Session → Session) (hr : r.goesOn = false)
    (hbreakpoints : ∀ u readText path lines, f (u.setBreakpoints readText path lines).2 =
      ((f u).setBreakpoints readText path lines).2)
    (htaken : ∀ u, f u.takeEvents.2 = f u) (hsame : f s = f t) :
    f (s.atGate line r) = f (t.atGate line r) := by
  cases r with
  | run | stepIn | stepOut | next => cases hr
  | launch | evaluate | terminate => exact hsame
  | takeEvents =>
    show f s.takeEvents.2 = f t.takeEvents.2
    rw [htaken, htaken, hsame]
  | setBreakpoints readText path lines =>
    show f (s.setBreakpoints readText path lines).2 = f (t.setBreakpoints readText path lines).2
    rw [hbreakpoints, hbreakpoints, hsame]

theorem depth_eq_of_unattempted (hsame : s.unattempted = t.unattempted) : s.depth = t.depth := by
  have hdepth : s.unattempted.depth = t.unattempted.depth := by rw [hsame]
  exact hdepth

/-- A request to go on forgets what has been pending before. -/
theorem takeEvents_atGate (line : Nat) (hr : r.goesOn = true)
    (hsame : s.unattempted = t.unattempted) :
    (s.atGate line r).takeEvents.2 = (t.atGate line r).takeEvents.2 := by
  obtain ⟨after, hafter⟩ := pending?_eq_some hr s.depth
  have hafter' : r.pending? t.depth = some after := depth_eq_of_unattempted hsame ▸ hafter
  have hforgets (u : Session) : (u.wait line after).takeEvents.2 =
      { u.unattempted with state := .waiting line after } := rfl
  simp only [atGate, hafter, hafter', hforgets, hsame]

theorem takeEvents_atGate_congr (r : Request) (hsame : s.takeEvents.2 = t.takeEvents.2) :
    (s.atGate line r).takeEvents.2 = (t.atGate line r).takeEvents.2 := by
  have hforgotten : s.takeEvents.2.unattempted = t.takeEvents.2.unattempted := by rw [hsame]
  cases hr : r.goesOn with
  | true => exact takeEvents_atGate line hr hforgotten
  | false => exact atGate_congr (·.takeEvents.2) hr (fun _ _ _ _ => rfl) (fun _ => rfl) hsame

/-- Requests to go on may be left out of a list, up to what is pending behind it and its events. -/
theorem unattempted_allAtGate (xs : List (Request × Nat)) (hs : s.WaitsAt line)
    (hsame : s.unattempted = t.unattempted) :
    (s.allAtGate line xs).unattempted =
      (t.allAtGate line (xs.filter fun r => !r.1.goesOn)).unattempted := by
  induction xs generalizing s t with
  | nil => exact hsame
  | cons r xs ih =>
    have hs' := hs.atGate r.1
    cases hr : r.1.goesOn with
    | true =>
      rw [List.filter_cons_of_neg (by simp [hr])]
      obtain ⟨before, hstate⟩ := hs.state
      exact ih hs' ((unattempted_atGate hr hstate).trans hsame)
    | false =>
      rw [List.filter_cons_of_pos (by simp [hr])]
      have hkept : (s.atGate line r.1).unattempted = (t.atGate line r.1).unattempted :=
        atGate_congr unattempted hr (fun _ _ _ _ => rfl) (fun _ => rfl) hsame
      exact ih hs' hkept

theorem takeEvents_allAtGate_congr (line : Nat) (rs : List (Request × Nat))
    (hsame : s.takeEvents.2 = t.takeEvents.2) :
    (s.allAtGate line rs).takeEvents.2 = (t.allAtGate line rs).takeEvents.2 := by
  induction rs generalizing s t with
  | nil => exact hsame
  | cons r rs ih => exact ih (takeEvents_atGate_congr r.1 hsame)

theorem allAtGate_stepper (s : Session) (line : Nat) (rs : List (Request × Nat)) :
    (s.allAtGate line rs).stepper = s.stepper := by
  induction rs generalizing s with
  | nil => rfl
  | cons r rs ih => exact (ih (s.atGate line r.1)).trans (atGate_stepper s line r.1)

theorem allAtGate_state (hstate : s.state = .waiting line pending) (rs : List (Request × Nat)) :
    (s.allAtGate line rs).state =
      .waiting line (rs.foldl (fun p r => (r.1.pending? s.depth).getD p) pending) := by
  induction rs generalizing s pending with
  | nil => exact hstate
  | cons r rs ih =>
    have hrest := ih (atGate_state hstate r.1)
    rwa [atGate_depth] at hrest

/-- As long as nobody takes them, one more prompt waits for each request to go on. -/
theorem allAtGate_events {rs : List (Request × Nat)} (hrs : ∀ r ∈ rs, r.1 ≠ .takeEvents) :
    (s.allAtGate line rs).events =
      s.events ++ Array.replicate (rs.countP (·.1.goesOn)) (.output .console inputPrompt) := by
  induction rs generalizing s with
  | nil => simp [allAtGate]
  | cons r rs ih =>
    have hrest := ih (s := s.atGate line r.1) fun r' hr' => hrs r' (List.mem_cons_of_mem r hr')
    have htaken := hrs r List.mem_cons_self
    refine hrest.trans ?_
    cases hr : r.1.goesOn with
    | true =>
      obtain ⟨after, hafter⟩ := pending?_eq_some hr s.depth
      have hevents : (s.atGate line r.1).events = s.events ++ #[.output .console inputPrompt] := by
        simp only [atGate, hafter, wait_events]
      rw [hevents, List.countP_cons_of_pos (by simpa using hr)]
      simp [Array.replicate_succ']
    | false =>
      have hevents : (s.atGate line r.1).events = s.events := by
        have hnone := pending?_eq_none hr s.depth
        unfold atGate
        rw [hnone]
        cases hr' : r.1 with
        | takeEvents => exact absurd hr' htaken
        | _ => rfl
      rw [hevents, List.countP_cons_of_neg (by simp [hr])]

end gate

theorem behind_events (s : Session) : s.takeEvents.2.behind s.events = s := by
  simp [takeEvents, behind]

/-- Asking a session that waits to go on only replaces what is pending in it. Each such request is
accepted and comes to nothing but one more prompt. Through any number of requests that neither
answer it nor end it the session waits before the same line, and shows the same frames and
variables. Of all the requests to go on only the last one counts: leaving out those before it
changes neither what an answer is answered nor what it leads to, up to the events that have waited
before. -/
theorem reattempts_only_replace_pending {assembler : Assembler} {s : Session} {line : Nat}
    {pending : Pending} (hreaches : Reaches assembler {} s)
    (hwaits : s.state = .waiting line pending) :
    (∀ r after fuel, r.pending? s.depth = some after → fuel ≠ 0 →
      s.reply assembler r fuel = some (.ok (), { s with
        state := .waiting line after,
        events := s.events.push (.output .console inputPrompt) })) ∧
    (∀ rs : List (Request × Nat), (∀ r ∈ rs, r.1.KeepsGate ∧ r.2 ≠ 0) →
      ∃ u, s.afterAll assembler rs = some u ∧ u.stepper = s.stepper ∧
        u.state = .waiting line (rs.foldl (fun p r => (r.1.pending? s.depth).getD p) pending) ∧
        (∀ start levels, u.stackTrace start levels = s.stackTrace start levels) ∧
        (∀ reference, u.variablesIn reference = s.variablesIn reference) ∧
        ((∀ r ∈ rs, r.1 ≠ .takeEvents) → u.events = s.events ++
          Array.replicate (rs.countP (·.1.goesOn)) (.output .console inputPrompt))) ∧
    ∀ (xs ys : List (Request × Nat)) (r : Request × Nat), r.1.goesOn = true →
      (∀ r' ∈ xs ++ r :: ys, r'.1.KeepsGate ∧ r'.2 ≠ 0) →
      ∃ u v w : Session, s.afterAll assembler (xs ++ r :: ys) = some u ∧
        s.afterAll assembler (xs.filter (fun x => !x.1.goesOn) ++ r :: ys) = some v ∧
        u = w.behind u.events ∧ v = w.behind v.events ∧
        ∀ text fuel,
          u.evaluate text .repl fuel =
            (w.evaluate text .repl fuel).map (fun (answer, t) => (answer, t.behind u.events)) ∧
          v.evaluate text .repl fuel =
            (w.evaluate text .repl fuel).map (fun (answer, t) => (answer, t.behind v.events)) := by
  have hs := waitsAt_of_reaches hreaches hwaits
  refine ⟨fun r after fuel hr hfuel => hs.reply hr hfuel, ?_, ?_⟩
  · intro rs hrs
    refine ⟨_, hs.afterAll hrs, allAtGate_stepper s line rs, allAtGate_state hwaits rs, ?_, ?_,
      allAtGate_events⟩
    · intro start levels
      simp only [stackTrace, currentLine, allAtGate_state hwaits, allAtGate_stepper, hwaits]
    · intro reference
      simp [variablesIn, allAtGate_state hwaits, allAtGate_stepper, hwaits]
  · intro xs ys r hr hall
    have hfewer : ∀ r' ∈ xs.filter (fun x => !x.1.goesOn) ++ r :: ys,
        r'.1.KeepsGate ∧ r'.2 ≠ 0 := by
      intro r' hr'
      apply hall r'
      rcases List.mem_append.mp hr' with hx | hy
      · exact List.mem_append_left _ ((List.mem_filter.mp hx).1)
      · exact List.mem_append_right _ hy
    have hbefore := unattempted_allAtGate xs hs rfl
    have hlast := takeEvents_atGate line hr hbefore
    have hsame := takeEvents_allAtGate_congr line ys hlast
    have hsplit (zs : List (Request × Nat)) : s.allAtGate line (zs ++ r :: ys) =
        ((s.allAtGate line zs).atGate line r.1).allAtGate line ys := by
      simp only [allAtGate, List.foldl_append, List.foldl_cons]
    rw [← hsplit, ← hsplit] at hsame
    generalize hu : s.allAtGate line (xs ++ r :: ys) = u at hsame
    generalize hv : s.allAtGate line (xs.filter (fun x => !x.1.goesOn) ++ r :: ys) = v at hsame
    have hu' : u.takeEvents.2.behind u.events = u := behind_events u
    have hv' : u.takeEvents.2.behind v.events = v := by rw [hsame, behind_events]
    refine ⟨u, v, u.takeEvents.2, hu ▸ hs.afterAll hall, hv ▸ hs.afterAll hfewer, hu'.symm,
      hv'.symm, ?_⟩
    intro text fuel
    have hframed := evaluate_framed text .repl fuel u.takeEvents.2
    constructor
    · rw [← hframed u.events, hu']
    · rw [← hframed v.events, hv']

/-- The session that waits for a step over a call is asked to step in, then for something that is no
answer, and then to run; its frames are still two, and only the run is left. -/
theorem waiting_session_reattempted : ∃ u, waitingSession.afterAll assemble
      [(.stepIn, 1), (.evaluate "GR1" .hover, 1), (.run, 1)] = some u ∧
    u.state = .waiting 5 .run ∧ u.depth = 2 ∧ u.events = waitingSession.events ++
      #[.output .console inputPrompt, .output .console inputPrompt] := by
  have hwaits : waitingSession.state = .waiting 5 (.stepOut 1) := by decide +kernel
  obtain ⟨-, hkept, -⟩ := reattempts_only_replace_pending reaches_waitingSession hwaits
  obtain ⟨u, hu, hstepper, hstate, -, -, hevents⟩ :=
    hkept [(.stepIn, 1), (.evaluate "GR1" .hover, 1), (.run, 1)] (by simp [Request.KeepsGate])
  refine ⟨u, hu, hstate, ?_, hevents (by simp)⟩
  rw [depth, hstepper]
  decide +kernel

end Comet.Session
