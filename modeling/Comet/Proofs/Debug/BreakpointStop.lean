import Comet.Proofs.Debug.Position

namespace Comet

/-- Where a session can be while the machine is at an address. -/
inductive Program.Whereabouts (p : Program) (pr : Word) : Nat → Prop
  | instruction {line : Nat} (hline : p.debug.lineAt pr = some line) : Whereabouts p pr line
  | callee {start : Nat} (hstart : p.debug.subroutineMap.get? pr = some start) :
      Whereabouts p pr start
  | belowCallee {start : Nat} (hstart : p.debug.subroutineMap.get? pr = some start) :
      Whereabouts p pr (start + 1)
  | loaded (hpr : pr = p.entry) : Whereabouts p pr 0
  | belowLoaded (hpr : pr = p.entry) (hstart : p.debug.isEntryLine 0 = true) : Whereabouts p pr 1

/-- A line at which the session takes the instruction at an entry address to be, though the START
line of the block need not be right above it. -/
def Program.Guesses (p : Program) (pr : Word) (line : Nat) : Prop :=
  (∃ start, p.debug.subroutineMap.get? pr = some start ∧ line = start + 1) ∨
    (pr = p.entry ∧ (line = 0 ∨ (line = 1 ∧ p.debug.isEntryLine 0 = true)))

namespace Assembly.Layout

variable {s : Layout} {n : Nat} {pr : Word} {line : Nat}

theorem Sound.whereabouts_moved (hs : s.Sound n) {t : LineStepper} {next : Nat}
    (hprogram : t.program = some s.program) (h : s.program.Whereabouts t.machine.pr line)
    (hmoved : (t.stepLine line).1 = .ok (.moved (some next))) :
    s.program.Whereabouts (t.stepLine line).2.machine.pr next := by
  rcases LineStepper.stepLine_moved hprogram hmoved with
    ⟨hentry, rfl, hsame⟩ | ⟨kind, -, -, -, -, -, harrival⟩
  · rw [hsame]
    cases h with
    | instruction hline =>
      rw [hs.apart.lineAt hline] at hentry
      cases hentry
    | callee hstart => exact .belowCallee hstart
    | belowCallee hstart =>
      rw [hs.apart.entryLine (DebugMap.isEntryLine_of_get? hstart)] at hentry
      cases hentry
    | loaded hpr => exact .belowLoaded hpr hentry
    | belowLoaded hpr hstart =>
      rw [hs.apart.entryLine hstart] at hentry
      cases hentry
  · cases kind with
    | call =>
      obtain ⟨callee, hcallee, rfl⟩ := Option.map_eq_some_iff.mp harrival
      exact .callee (DebugMap.get?_of_subroutineAt hcallee)
    | ret | input | other => exact .instruction harrival

/-- An instruction is executed at its line or at a guess of it. -/
theorem whereabouts_guess {p : Program} (h : p.Whereabouts pr line)
    (hentry : p.debug.isEntryLine line = false) :
    p.debug.lineAt pr = some line ∨ p.Guesses pr line := by
  cases h with
  | instruction hline => exact Or.inl hline
  | callee hstart =>
    rw [DebugMap.isEntryLine_of_get? hstart] at hentry
    cases hentry
  | belowCallee hstart => exact Or.inr (Or.inl ⟨_, hstart, rfl⟩)
  | loaded hpr => exact Or.inr (Or.inr ⟨hpr, Or.inl rfl⟩)
  | belowLoaded hpr hstart => exact Or.inr (Or.inr ⟨hpr, Or.inr ⟨rfl, hstart⟩⟩)

theorem Aligned.isEntryLine (ha : s.Aligned) {b : ClosedBlock} (hb : b ∈ s.blocks) :
    s.program.debug.isEntryLine b.startLine = true := by
  have hmem : (b.entry, b.startLine) ∈ (s.blocks.map fun b => (b.entry, b.startLine)).reverse :=
    List.mem_reverse.mpr (List.mem_map.mpr ⟨b, hb, rfl⟩)
  have hsome : (s.program.debug.subroutineMap.get? b.entry).isSome := by
    show ((AddressMap.ofList _).get? b.entry).isSome
    rw [AddressMap.get?_ofList, List.lookup_isSome_iff]
    exact ⟨_, hmem, by simp⟩
  obtain ⟨start, hstart⟩ := Option.isSome_iff_exists.mp hsome
  -- The map could name another block at that address, but both have their instruction right below.
  obtain ⟨c, hc, hentry, rfl⟩ := subroutineMap_get?_eq_some hstart
  have hline := ha.below c hc
  rw [hentry, ha.below b hb] at hline
  have hsame : b.startLine = c.startLine := by
    simp only [Option.some.injEq] at hline
    omega
  rw [hsame]
  exact DebugMap.isEntryLine_of_get? hstart

theorem Aligned.lineAt_of_guesses (ha : s.Aligned) (h : s.program.Guesses pr line)
    (hentry : s.program.debug.isEntryLine line = false) :
    s.program.debug.lineAt pr = some line := by
  rcases h with ⟨start, hstart, rfl⟩ | ⟨hpr, hline⟩
  · obtain ⟨b, hb, rfl, rfl⟩ := subroutineMap_get?_eq_some hstart
    exact ha.below b hb
  · obtain ⟨b, hhead, hstart⟩ := Option.map_eq_some_iff.mp ha.first
    have hb := List.mem_of_head? hhead
    have hpr : pr = b.entry := by
      rw [hpr, Layout.program, hhead]
      rfl
    have hfirst := ha.isEntryLine hb
    have hbelow := ha.below b hb
    rw [hstart] at hfirst hbelow
    rcases hline with rfl | ⟨rfl, -⟩
    · rw [hfirst] at hentry
      cases hentry
    · rw [hpr]
      exact hbelow

end Assembly.Layout

namespace Session

/-- The program is that of a source in which nothing is wrong, and the session is where it can
be. -/
def Located (t : LineStepper) (line : Nat) : Prop :=
  ∃ source options, (assemble source options).diagnostics = [] ∧
    t.program = some (layoutOf source options).program ∧
    (layoutOf source options).program.Whereabouts t.machine.pr line

theorem kept_located : Kept Located where
  moved := by
    rintro t line next ⟨source, options, hdiagnostics, hprogram, hwhere⟩ hmoved
    exact ⟨source, options, hdiagnostics, LineStepper.stepLine_program hprogram,
      (layoutOf_sound hdiagnostics).whereabouts_moved hprogram hwhere hmoved⟩
  input _ h := h
  output h := h

theorem Loads.located {s t : Session} {readText : ReadText} {l : Launch}
    (h : s.Loads assemble readText l t) : Located t.stepper 0 := by
  obtain ⟨source, m, entry, hread, hdiagnostics, -, -⟩ := h.program
  obtain ⟨hprogram, hpr⟩ := h.at_entry hread
  exact ⟨source, l.assembly, hdiagnostics, hprogram, .loaded hpr⟩

section moments

variable {s : Session} {r : Request} {m m' : Moment} {k : Nat}

/-- In all sessions there can be, all moments of a request are where they can be. -/
theorem located_of_reaches (hreaches : Reaches assemble {} s) (hstart : Starts assemble s r m)
    (hat : m.at? k = some m') : Located m'.session.stepper m'.line := by
  have hstanding := kept_located.reaches (s := {}) (fun hloads => hloads.located)
    (fun _ h => by cases h) hreaches
  refine kept_located.at? ?_ hat
  cases hstart with
  | launch readText l t hloads =>
    show Located t.stepper 0
    exact hloads.located
  | run line hline | stepIn line hline | stepOut line hline | next line hline =>
    exact hstanding line hline
  | input text line pending hwaits => exact hstanding line (by rw [standing?, hwaits])

/-- A request is at the line of a breakpoint only if it began there. -/
theorem line_eq_of_hitsBreakpoint (hstart : Starts assemble s r m) (hat : m.at? k = some m')
    {line : Nat} (hbreak : m'.session.hitsBreakpoint line = true) :
    m'.line = line ↔ k = 0 ∧ s.currentLine = some line := by
  cases k with
  | succ k =>
    obtain ⟨m'', -, hnext⟩ := Moment.at?_succ_eq_some hat
    have hfree := (Moment.next_eq_going hnext).2.2.2
    refine iff_of_false ?_ (by omega)
    rintro rfl
    rw [hfree] at hbreak
    cases hbreak
  | zero =>
    simp only [Moment.at?, Option.some.injEq] at hat
    subst hat
    simp only [true_and]
    cases hstart with
    | launch readText l t hloads hentry hfree =>
      refine iff_of_false ?_ (by simp [currentLine, hloads.idle])
      rintro rfl
      have hnone : ({ t with state := .running 0 } : Session).hitsBreakpoint 0 = false := hfree
      rw [hnone] at hbreak
      cases hbreak
    | run l hline | stepIn l hline | stepOut l hline | next l hline =>
      have hcurrent : s.currentLine = some l := by
        unfold standing? at hline
        unfold currentLine
        cases hs : s.state <;> simp_all
      rw [hcurrent, Option.some.injEq]
    | input text l pending hwaits => rw [currentLine, hwaits, Option.some.injEq]

/-- The request leaves this line and no other. -/
def Moment.Single (m : Moment) : Prop :=
  m.pending = .stepIn ∨
    (m.pending = .next ∧ m.session.stepper.peek m.line ≠ .ok (some .call))

/-- A breakpoint at the line that comes next ends the request before anything there is executed. -/
theorem next_of_hitsBreakpoint {next : Nat}
    (hmoved : (m.session.stepper.stepLine m.line).1 = .ok (.moved (some next)))
    (hbreak : m.session.hitsBreakpoint next = true) :
    ∃ reason, m.next = .rest ((m.session.afterLine m.line).stop next reason) ∧
      (reason = .breakpoint ∨ (reason = .step ∧ m.Single)) := by
  have hafter : (m.session.afterLine m.line).hitsBreakpoint next = true := by
    rwa [afterLine_hitsBreakpoint]
  rcases m.next_cases with ⟨e, hpeek, -⟩ | ⟨-, -, hnext⟩ | ⟨hother, hnext⟩
  · obtain ⟨kind, hkind⟩ := LineStepper.peek_of_moved hmoved
    rw [hkind] at hpeek
    cases hpeek
  · refine ⟨.breakpoint, ?_, Or.inl rfl⟩
    rw [hnext, Moment.enter_of_moved hmoved, if_pos hbreak]
  · rw [hnext, Moment.leave_of_moved hmoved]
    cases hpending : m.pending with
    | stepIn => exact ⟨.step, rfl, Or.inr ⟨rfl, Or.inl hpending⟩⟩
    | next => exact ⟨.step, rfl, Or.inr ⟨rfl, Or.inr ⟨hpending, hother hpending⟩⟩⟩
    | run | stepOut depth =>
      refine ⟨.breakpoint, ?_, Or.inl rfl⟩
      simp only [stopReason?, hafter, if_true]

end moments

/-- A breakpoint is run over exactly where the session is at another line than the instruction, and
that is so only at the entry of a block, by a guess that is right for aligned sources. Wherever else
the request comes to a breakpoint, it stops there before executing anything. -/
theorem breakpoint_run_over_iff_line_guessed_wrong {s : Session} {r : Request} {m m' : Moment}
    {k : Nat} (hreaches : Reaches assemble {} s) (hstart : Starts assemble s r m)
    (hat : m.at? k = some m') :
    ∃ source options, (assemble source options).diagnostics = [] ∧
      m'.session.stepper.program = some (layoutOf source options).program ∧
      (∀ line, m'.session.stepper.executes m'.line = true →
        (layoutOf source options).program.debug.lineAt m'.session.stepper.machine.pr = some line →
        m'.session.hitsBreakpoint line = true →
        (¬ (k = 0 ∧ s.currentLine = some line) ↔ m'.line ≠ line) ∧
        (m'.line ≠ line → ¬ (layoutOf source options).Aligned ∧
          (layoutOf source options).program.Guesses m'.session.stepper.machine.pr m'.line)) ∧
      ∀ next, (m'.session.stepper.stepLine m'.line).1 = .ok (.moved (some next)) →
        m'.session.hitsBreakpoint next = true →
        ∃ reason, m'.next = .rest ((m'.session.afterLine m'.line).stop next reason) ∧
          (reason = .breakpoint ∨ (reason = .step ∧ m'.Single)) := by
  obtain ⟨source, options, hdiagnostics, hprogram, hwhere⟩ :=
    located_of_reaches hreaches hstart hat
  refine ⟨source, options, hdiagnostics, hprogram, ?_, fun next => next_of_hitsBreakpoint⟩
  intro line hexecutes hline hbreak
  refine ⟨not_congr (line_eq_of_hitsBreakpoint hstart hat hbreak).symm, fun hne => ?_⟩
  have hentry : (layoutOf source options).program.debug.isEntryLine m'.line = false := by
    simp only [LineStepper.executes, LineStepper.isEntryLine, hprogram, Bool.and_eq_true,
      Bool.not_eq_true'] at hexecutes
    exact hexecutes.1
  have hwrong : (layoutOf source options).program.debug.lineAt m'.session.stepper.machine.pr ≠
      some m'.line := by
    rw [hline]
    exact fun h => hne (Option.some.inj h).symm
  have hguess := (Assembly.Layout.whereabouts_guess hwhere hentry).resolve_left hwrong
  exact ⟨fun haligned => hwrong (haligned.lineAt_of_guesses hguess hentry), hguess⟩

/-- A comment stands between the START and the first instruction, which has a breakpoint. -/
def commentSource : String := "MAIN START\n; comment\n LAD GR1,1\n RET\n END\n"

def commentRequests : List (Request × Nat) :=
  [(.setBreakpoints (fun _ => .ok commentSource) "p.cas" [2], 0),
    (.launch (fun _ => .ok commentSource) { program := "p.cas", stopOnEntry := true }, 0)]

def commentSession : Session := (({} : Session).afterAll assemble commentRequests).getD {}

theorem commentSession_reached : Reaches assemble {} commentSession := by
  have hsome : (({} : Session).afterAll assemble commentRequests).isSome = true := by
    decide +kernel
  obtain ⟨s, hs⟩ := Option.isSome_iff_exists.mp hsome
  have hsame : commentSession = s := by rw [commentSession, hs]; rfl
  rw [hsame]
  exact reaches_of_afterAll hs

theorem commentSession_starts :
    Starts assemble commentSession .run ⟨commentSession, 0, .run⟩ :=
  .run 0 (by decide +kernel)

/-- The request goes on to line 1, from where it executes the instruction of line 2. -/
theorem commentSession_second_line : ∃ m', Moment.at? ⟨commentSession, 0, .run⟩ 1 = some m' ∧
    m'.line = 1 ∧ m'.session.stepper.executes m'.line = true ∧
    m'.session.hitsBreakpoint 2 = true ∧
    m'.session.stepper.program.map (·.debug.lineAt m'.session.stepper.machine.pr) =
      some (some 2) := by
  have hmoment : (Moment.at? ⟨commentSession, 0, .run⟩ 1).map (fun m' =>
      (m'.line, m'.session.stepper.executes m'.line, m'.session.hitsBreakpoint 2,
        m'.session.stepper.program.map (·.debug.lineAt m'.session.stepper.machine.pr))) =
      some (1, true, true, some (some 2)) := by decide +kernel
  obtain ⟨m', hat, hm'⟩ := Option.map_eq_some_iff.mp hmoment
  simp only [Prod.mk.injEq] at hm'
  exact ⟨m', hat, hm'⟩

/-- The line that the session guesses is that of the comment. -/
theorem comment_line_guessed_wrong : ∃ m', Moment.at? ⟨commentSession, 0, .run⟩ 1 = some m' ∧
    ∃ source options, (assemble source options).diagnostics = [] ∧
      m'.session.stepper.program = some (layoutOf source options).program ∧
      ¬ (layoutOf source options).Aligned ∧
      (layoutOf source options).program.Guesses m'.session.stepper.machine.pr 1 := by
  obtain ⟨m', hat, hline, hexecutes, hbreak, hlineAt⟩ := commentSession_second_line
  obtain ⟨source, options, hdiagnostics, hprogram, hover, -⟩ :=
    breakpoint_run_over_iff_line_guessed_wrong commentSession_reached commentSession_starts hat
  rw [hprogram, Option.map_some, Option.some.injEq] at hlineAt
  obtain ⟨-, hguess⟩ := hover 2 hexecutes hlineAt hbreak
  rw [hline] at hguess
  exact ⟨m', hat, source, options, hdiagnostics, hprogram, hguess (by decide)⟩

/-- The breakpoint is run over: the session was stopped at line 0, not at line 2. -/
theorem breakpoint_below_comment_run_over :
    Reaches assemble {} commentSession ∧
      Starts assemble commentSession .run ⟨commentSession, 0, .run⟩ ∧
      commentSession.currentLine = some 0 ∧
      ∃ m', Moment.at? ⟨commentSession, 0, .run⟩ 1 = some m' ∧
        m'.session.stepper.executes m'.line = true ∧ m'.session.hitsBreakpoint 2 = true ∧
        m'.session.stepper.program.map (·.debug.lineAt m'.session.stepper.machine.pr) =
          some (some 2) := by
  obtain ⟨m', hat, -, hexecutes, hbreak, hlineAt⟩ := commentSession_second_line
  exact ⟨commentSession_reached, commentSession_starts, by decide +kernel, m', hat, hexecutes,
    hbreak, hlineAt⟩

end Session

end Comet
