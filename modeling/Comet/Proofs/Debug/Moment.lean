import Comet.Debug.Session
import Comet.Proofs.Debug.LineStep

/-! The moments of a request. A request that goes on leaves one line after the other; between two
of them the session is at a moment of the request, and the next moment depends on this one alone.
The bound on the number of lines is no part of it: a request answers with a large enough bound if
and only if its moments come to an end. -/
namespace Comet.Session

section frame

variable (s : Session)

theorem foldl_emit {α : Type} (xs : List α) (f : α → Event) :
    xs.foldl (fun s x => s.emit (f x)) s = { s with events := s.events ++ (xs.map f).toArray } := by
  induction xs generalizing s with
  | nil => simp
  | cons x xs ih =>
    rw [List.foldl_cons, ih]
    simp [emit]

/-- What the program has written becomes events; nothing else changes. -/
theorem passOutput_eq : s.passOutput =
    { s with
      stepper := { s.stepper with output := #[] },
      events := s.events ++ s.stepper.output.map fun text => .output .stdout (text ++ "\n") } := by
  simp only [passOutput, LineStepper.takeOutput, foldl_emit]
  congr 2
  apply Array.toList_inj.mp
  simp

@[simp] theorem passOutput_stepper : s.passOutput.stepper = { s.stepper with output := #[] } := by
  rw [passOutput_eq]

/-- The session after a line has been left, before the outcome is looked at. -/
def afterLine (line : Nat) : Session := { s with stepper := (s.stepper.stepLine line).2 }.passOutput

@[simp] theorem afterLine_stepper (line : Nat) :
    (s.afterLine line).stepper = { (s.stepper.stepLine line).2 with output := #[] } := by
  rw [afterLine, passOutput_eq]

@[simp] theorem afterLine_breakpoints (line : Nat) :
    (s.afterLine line).breakpoints = s.breakpoints := by
  rw [afterLine, passOutput_eq]

@[simp] theorem afterLine_sourceFile (line : Nat) :
    (s.afterLine line).sourceFile = s.sourceFile := by
  rw [afterLine, passOutput_eq]

@[simp] theorem afterLine_hitsBreakpoint (line l : Nat) :
    (s.afterLine line).hitsBreakpoint l = s.hitsBreakpoint l := by
  simp [hitsBreakpoint]

/-- The line of a session that can go on. -/
def standing? : Option Nat :=
  match s.state with
  | .running line | .waiting line _ => some line
  | _ => none

@[simp] theorem fail_stepper (line : Nat) (message : String) :
    (s.fail line message).stepper = s.stepper := rfl

@[simp] theorem terminate_stepper : s.terminate.stepper = s.stepper := rfl

@[simp] theorem stop_stepper (line : Nat) (reason : StopReason) :
    (s.stop line reason).stepper = s.stepper := rfl

@[simp] theorem stop_standing? (line : Nat) (reason : StopReason) :
    (s.stop line reason).standing? = some line := rfl

@[simp] theorem fail_standing? (line : Nat) (message : String) :
    (s.fail line message).standing? = none := rfl

@[simp] theorem terminate_standing? : s.terminate.standing? = none := rfl

@[simp] theorem wait_stepper (line : Nat) (pending : Pending) :
    (s.wait line pending).stepper = s.stepper := rfl

@[simp] theorem wait_standing? (line : Nat) (pending : Pending) :
    (s.wait line pending).standing? = some line := rfl

end frame

section advance

variable {s u : Session} {line next : Nat} {pending : Pending}

theorem advance_of_moved (h : (s.stepper.stepLine line).1 = .ok (.moved (some next))) :
    s.advance line pending = (some next, s.afterLine line) := by
  simp only [advance, h]
  rfl

theorem advance_of_error {e : StepError} (h : (s.stepper.stepLine line).1 = .error e) :
    s.advance line pending = (none, (s.afterLine line).fail line e.message) := by
  simp only [advance, h]
  rfl

theorem advance_of_ended {l : Option Nat} (h : (s.stepper.stepLine line).1 = .ok (.ended l)) :
    s.advance line pending = (none, (s.afterLine line).terminate) := by
  simp only [advance, h]
  rfl

theorem advance_of_waits {l : Nat} (h : (s.stepper.stepLine line).1 = .ok (.waits l)) :
    s.advance line pending = (none, (s.afterLine line).wait l pending) := by
  simp only [advance, h]
  rfl

theorem advance_of_lost (h : (s.stepper.stepLine line).1 = .ok (.moved none)) :
    s.advance line pending = (none, (s.afterLine line).fail line
      s!"execution reached #{(s.afterLine line).stepper.machine.pr.hex}, which maps to no source line") := by
  simp only [advance, h]
  rfl

theorem advance_eq_none (h : s.advance line pending = (none, u)) :
    (∃ e, (s.stepper.stepLine line).1 = .error e ∧ u = (s.afterLine line).fail line e.message) ∨
    (∃ l, (s.stepper.stepLine line).1 = .ok (.ended l) ∧ u = (s.afterLine line).terminate) ∨
    (∃ l, (s.stepper.stepLine line).1 = .ok (.waits l) ∧ u = (s.afterLine line).wait l pending) ∨
    ((s.stepper.stepLine line).1 = .ok (.moved none) ∧
      u = (s.afterLine line).fail line
        s!"execution reached #{(s.afterLine line).stepper.machine.pr.hex}, which maps to no source line") := by
  cases hresult : (s.stepper.stepLine line).1 with
  | error e =>
    rw [advance_of_error hresult] at h
    exact Or.inl ⟨e, rfl, (Prod.mk.inj h).2.symm⟩
  | ok outcome =>
    refine Or.inr ?_
    cases outcome with
    | ended l =>
      rw [advance_of_ended hresult] at h
      exact Or.inl ⟨l, rfl, (Prod.mk.inj h).2.symm⟩
    | waits l =>
      rw [advance_of_waits hresult] at h
      exact Or.inr (Or.inl ⟨l, rfl, (Prod.mk.inj h).2.symm⟩)
    | moved arrival =>
      cases arrival with
      | none =>
        rw [advance_of_lost hresult] at h
        exact Or.inr (Or.inr ⟨rfl, (Prod.mk.inj h).2.symm⟩)
      | some next =>
        rw [advance_of_moved hresult] at h
        cases h

theorem advance_eq_some (h : s.advance line pending = (some next, u)) :
    (s.stepper.stepLine line).1 = .ok (.moved (some next)) ∧ u = s.afterLine line := by
  cases hresult : (s.stepper.stepLine line).1 with
  | error e =>
    rw [advance_of_error hresult] at h
    cases h
  | ok outcome =>
    cases outcome with
    | ended l =>
      rw [advance_of_ended hresult] at h
      cases h
    | waits l =>
      rw [advance_of_waits hresult] at h
      cases h
    | moved arrival =>
      cases arrival with
      | none =>
        rw [advance_of_lost hresult] at h
        cases h
      | some l =>
        rw [advance_of_moved hresult] at h
        cases h
        exact ⟨rfl, rfl⟩

/-- A session that has come to rest by itself stands at no line to be left. -/
theorem state_ne_running_of_advance (h : s.advance line pending = (none, u)) (l : Nat) :
    u.state ≠ .running l := by
  rcases advance_eq_none h with ⟨e, -, rfl⟩ | ⟨l', -, rfl⟩ | ⟨l', -, rfl⟩ | ⟨-, rfl⟩ <;>
    exact State.noConfusion

end advance

/-- Where there is no reason to stop there is no breakpoint, and more than one line is asked for. -/
theorem stopReason?_eq_none {s : Session} {pending : Pending} {line : Nat}
    (h : s.stopReason? pending line = none) :
    pending ≠ .next ∧ s.hitsBreakpoint line = false := by
  cases pending with
  | stepIn | next => simp [stopReason?] at h
  | run | stepOut depth =>
    refine ⟨by simp, ?_⟩
    cases hhits : s.hitsBreakpoint line with
    | false => rfl
    | true => simp [stopReason?, hhits] at h

/-- A line that has been left is a step; that there is a breakpoint is said only where it is so. -/
theorem stopReason?_eq_some {s : Session} {pending : Pending} {line : Nat}
    {reason : StopReason} (h : s.stopReason? pending line = some reason) :
    reason = .step ∨ (reason = .breakpoint ∧ s.hitsBreakpoint line = true) := by
  cases pending with
  | stepIn | next => exact Or.inl (Option.some.inj h).symm
  | run =>
    by_cases hhits : s.hitsBreakpoint line = true
    · rw [stopReason?, if_pos hhits] at h
      exact Or.inr ⟨(Option.some.inj h).symm, hhits⟩
    · rw [stopReason?, if_neg hhits] at h
      cases h
  | stepOut depth =>
    by_cases hhits : s.hitsBreakpoint line = true
    · rw [stopReason?, if_pos hhits] at h
      exact Or.inr ⟨(Option.some.inj h).symm, hhits⟩
    · rw [stopReason?, if_neg hhits] at h
      by_cases hdepth : s.stepper.stack.depth = depth
      · rw [if_pos hdepth] at h
        exact Or.inl (Option.some.inj h).symm
      · rw [if_neg hdepth] at h
        cases h

/-- A session in the middle of a request: it is about to leave a line. -/
structure Moment where
  session : Session
  line : Nat
  pending : Pending

/-- Where a request is once a line has been left. -/
inductive Progress
  | going (m : Moment)
  | rest (s : Session)

/-- The session in which a line has been left, whether the request goes on or not. -/
def Progress.session : Progress → Session
  | going m => m.session
  | rest s => s

namespace Moment

/-- Leaves the line of a call that is stepped over, and goes on as a step out of the callee. -/
def enter (m : Moment) : Progress :=
  match m.session.advance m.line .next with
  | (none, s) => .rest s
  | (some next, s) =>
    if s.hitsBreakpoint next then .rest (s.stop next .breakpoint)
    else .going ⟨s, next, .stepOut m.session.stepper.stack.depth⟩

/-- Leaves any other line. -/
def leave (m : Moment) : Progress :=
  match m.session.advance m.line m.pending with
  | (none, s) => .rest s
  | (some next, s) => match s.stopReason? m.pending next with
    | some reason => .rest (s.stop next reason)
    | none => .going ⟨s, next, m.pending⟩

def next (m : Moment) : Progress :=
  match m.pending, m.session.stepper.peek m.line with
  | .next, .error e => .rest (m.session.fail m.line e.message)
  | .next, .ok (some .call) => m.enter
  | _, _ => m.leave

/-- The moment after `k` lines, if the request still goes on then. -/
def at? (m : Moment) : Nat → Option Moment
  | 0 => some m
  | k + 1 => match (m.at? k).map next with
    | some (.going m') => some m'
    | _ => none

/-- The request comes to rest in this session. -/
def Ends (m : Moment) (u : Session) : Prop := ∃ k m', m.at? k = some m' ∧ m'.next = .rest u

/-- The session in which the request comes to rest, if `fuel` lines are enough. -/
def finish (m : Moment) : (fuel : Nat) → Option Session
  | 0 => none
  | fuel + 1 => match m.next with
    | .rest s => some s
    | .going m' => m'.finish fuel

def onward (m : Moment) : Pending :=
  match m.pending with
  | .next => .stepOut m.session.stepper.stack.depth
  | pending => pending

section next

variable {m m' : Moment} {u : Session}

theorem onward_of_pending_ne (h : m.pending ≠ .next) : m.onward = m.pending := by
  unfold onward
  cases hpending : m.pending with
  | next => exact absurd hpending h
  | run | stepIn | stepOut => rfl

theorem next_of_pending_ne (h : m.pending ≠ .next) : m.next = m.leave := by
  cases hpending : m.pending with
  | next => exact absurd hpending h
  | run | stepIn | stepOut => simp only [next, hpending]

theorem next_of_peek_ne {kind : Option InstructionKind}
    (hpeek : m.session.stepper.peek m.line = .ok kind) (hkind : kind ≠ some .call) :
    m.next = m.leave := by
  cases hpending : m.pending with
  | run | stepIn | stepOut => exact next_of_pending_ne (by simp [hpending])
  | next =>
    cases kind with
    | none => simp only [next, hpending, hpeek]
    | some kind =>
      cases kind with
      | call => exact absurd rfl hkind
      | ret | input | other => simp only [next, hpending, hpeek]

/-- A step over looks at the instruction first: without one it fails, and a call it enters. In all
other cases the request just leaves the line. -/
theorem next_cases (m : Moment) :
    (∃ e, m.session.stepper.peek m.line = .error e ∧
      m.next = .rest (m.session.fail m.line e.message)) ∨
    (m.pending = .next ∧ m.session.stepper.peek m.line = .ok (some .call) ∧ m.next = m.enter) ∨
    ((m.pending = .next → m.session.stepper.peek m.line ≠ .ok (some .call)) ∧
      m.next = m.leave) := by
  by_cases hpending : m.pending = .next
  · cases hpeek : m.session.stepper.peek m.line with
    | error e => exact Or.inl ⟨e, rfl, by simp only [next, hpending, hpeek]⟩
    | ok kind =>
      by_cases hcall : kind = some .call
      · subst hcall
        exact Or.inr (Or.inl ⟨hpending, rfl, by simp only [next, hpending, hpeek]⟩)
      · have hother : (.ok kind : Except StepError (Option InstructionKind)) ≠ .ok (some .call) :=
          fun h => hcall (Except.ok.inj h)
        exact Or.inr (Or.inr ⟨fun _ => hother, next_of_peek_ne hpeek hcall⟩)
  · exact Or.inr (Or.inr ⟨fun h => absurd h hpending, next_of_pending_ne hpending⟩)

theorem leave_of_moved {l : Nat}
    (h : (m.session.stepper.stepLine m.line).1 = .ok (.moved (some l))) :
    m.leave = match (m.session.afterLine m.line).stopReason? m.pending l with
      | some reason => .rest ((m.session.afterLine m.line).stop l reason)
      | none => .going ⟨m.session.afterLine m.line, l, m.pending⟩ := by
  rw [leave, advance_of_moved h]

theorem enter_of_moved {l : Nat}
    (h : (m.session.stepper.stepLine m.line).1 = .ok (.moved (some l))) :
    m.enter = if m.session.hitsBreakpoint l then
        .rest ((m.session.afterLine m.line).stop l .breakpoint)
      else .going ⟨m.session.afterLine m.line, l, .stepOut m.session.stepper.stack.depth⟩ := by
  rw [enter, advance_of_moved h]
  simp only [afterLine_hitsBreakpoint]

theorem leave_of_advance_none (h : m.session.advance m.line m.pending = (none, u)) :
    m.leave = .rest u := by
  rw [leave, h]

theorem enter_of_advance_none (h : m.session.advance m.line .next = (none, u)) :
    m.enter = .rest u := by
  rw [enter, h]

theorem leave_eq_going (h : m.leave = .going m') :
    (m.session.stepper.stepLine m.line).1 = .ok (.moved (some m'.line)) ∧
      m' = ⟨m.session.afterLine m.line, m'.line, m.pending⟩ ∧
      (m.session.afterLine m.line).stopReason? m.pending m'.line = none := by
  cases hadvance : m.session.advance m.line m.pending with | mk arrival v
  cases arrival with
  | none =>
    rw [leave_of_advance_none hadvance] at h
    cases h
  | some l =>
    obtain ⟨hmoved, rfl⟩ := advance_eq_some hadvance
    rw [leave_of_moved hmoved] at h
    cases hreason : (m.session.afterLine m.line).stopReason? m.pending l with
    | some reason => simp [hreason] at h
    | none =>
      rw [hreason] at h
      cases h
      exact ⟨hmoved, rfl, hreason⟩

theorem leave_eq_rest (h : m.leave = .rest u) :
    m.session.advance m.line m.pending = (none, u) ∨
    ∃ l reason, (m.session.stepper.stepLine m.line).1 = .ok (.moved (some l)) ∧
      (m.session.afterLine m.line).stopReason? m.pending l = some reason ∧
      u = (m.session.afterLine m.line).stop l reason := by
  cases hadvance : m.session.advance m.line m.pending with | mk arrival v
  cases arrival with
  | none =>
    rw [leave_of_advance_none hadvance] at h
    cases h
    exact Or.inl rfl
  | some l =>
    obtain ⟨hmoved, rfl⟩ := advance_eq_some hadvance
    rw [leave_of_moved hmoved] at h
    cases hreason : (m.session.afterLine m.line).stopReason? m.pending l with
    | some reason =>
      rw [hreason] at h
      cases h
      exact Or.inr ⟨l, reason, hmoved, hreason, rfl⟩
    | none => simp [hreason] at h

theorem enter_eq_going (h : m.enter = .going m') :
    (m.session.stepper.stepLine m.line).1 = .ok (.moved (some m'.line)) ∧
      m' = ⟨m.session.afterLine m.line, m'.line, .stepOut m.session.stepper.stack.depth⟩ ∧
      m.session.hitsBreakpoint m'.line = false := by
  cases hadvance : m.session.advance m.line .next with | mk arrival v
  cases arrival with
  | none =>
    rw [enter_of_advance_none hadvance] at h
    cases h
  | some l =>
    obtain ⟨hmoved, rfl⟩ := advance_eq_some hadvance
    rw [enter_of_moved hmoved] at h
    cases hhits : m.session.hitsBreakpoint l with
    | true => simp [hhits] at h
    | false =>
      rw [hhits] at h
      cases h
      exact ⟨hmoved, rfl, hhits⟩

theorem enter_eq_rest (h : m.enter = .rest u) :
    m.session.advance m.line .next = (none, u) ∨
    ∃ l, (m.session.stepper.stepLine m.line).1 = .ok (.moved (some l)) ∧
      m.session.hitsBreakpoint l = true ∧
      u = (m.session.afterLine m.line).stop l .breakpoint := by
  cases hadvance : m.session.advance m.line .next with | mk arrival v
  cases arrival with
  | none =>
    rw [enter_of_advance_none hadvance] at h
    cases h
    exact Or.inl rfl
  | some l =>
    obtain ⟨hmoved, rfl⟩ := advance_eq_some hadvance
    rw [enter_of_moved hmoved] at h
    cases hhits : m.session.hitsBreakpoint l with
    | true =>
      rw [hhits] at h
      cases h
      exact Or.inr ⟨l, hmoved, hhits, rfl⟩
    | false => simp [hhits] at h

/-- A request goes on from a line only if no breakpoint is there. -/
theorem next_eq_going (h : m.next = .going m') :
    (m.session.stepper.stepLine m.line).1 = .ok (.moved (some m'.line)) ∧
      m'.session = m.session.afterLine m.line ∧ m'.pending = m.onward ∧
      m'.session.hitsBreakpoint m'.line = false := by
  rcases m.next_cases with ⟨e, -, hnext⟩ | ⟨hpending, -, hnext⟩ | ⟨-, hnext⟩
  · rw [hnext] at h
    cases h
  · obtain ⟨hmoved, hm', hhits⟩ := enter_eq_going (hnext ▸ h)
    rw [hm']
    exact ⟨hmoved, rfl, by simp only [onward, hpending], by simpa using hhits⟩
  · obtain ⟨hmoved, hm', hreason⟩ := leave_eq_going (hnext ▸ h)
    obtain ⟨hpending, hhits⟩ := stopReason?_eq_none hreason
    rw [hm']
    exact ⟨hmoved, rfl, (onward_of_pending_ne hpending).symm, hhits⟩

/-- A request comes to rest where it stops at a line, where the session has come to rest by itself,
or where a step over finds no instruction. -/
theorem next_rest_cases (h : m.next = .rest u) :
    (∃ l reason,
      (reason = .step ∨ (reason = .breakpoint ∧ m.session.hitsBreakpoint l = true)) ∧
      (m.session.stepper.stepLine m.line).1 = .ok (.moved (some l)) ∧
      u = (m.session.afterLine m.line).stop l reason) ∨
    (∃ pending, m.session.advance m.line pending = (none, u)) ∨
    ∃ e, m.session.stepper.peek m.line = .error e ∧ u = m.session.fail m.line e.message := by
  rcases m.next_cases with ⟨e, hpeek, hnext⟩ | ⟨-, -, hnext⟩ | ⟨-, hnext⟩
  · rw [hnext] at h
    cases h
    exact Or.inr (Or.inr ⟨e, hpeek, rfl⟩)
  · rcases enter_eq_rest (hnext ▸ h) with hadvance | ⟨l, hmoved, hhits, hu⟩
    · exact Or.inr (Or.inl ⟨_, hadvance⟩)
    · exact Or.inl ⟨l, _, Or.inr ⟨rfl, hhits⟩, hmoved, hu⟩
  · rcases leave_eq_rest (hnext ▸ h) with hadvance | ⟨l, reason, hmoved, hreason, hu⟩
    · exact Or.inr (Or.inl ⟨_, hadvance⟩)
    · have hwhy := stopReason?_eq_some hreason
      rw [afterLine_hitsBreakpoint] at hwhy
      exact Or.inl ⟨l, reason, hwhy, hmoved, hu⟩

theorem next_eq_rest (h : m.next = .rest u) :
    (∃ l reason, (m.session.stepper.stepLine m.line).1 = .ok (.moved (some l)) ∧
      u = (m.session.afterLine m.line).stop l reason) ∨
    (∃ pending, m.session.advance m.line pending = (none, u)) ∨
    ∃ e, m.session.stepper.peek m.line = .error e ∧ u = m.session.fail m.line e.message :=
  (next_rest_cases h).imp_left fun ⟨l, reason, _, hstop⟩ => ⟨l, reason, hstop⟩

/-- Nothing but leaving the line happens to the stepper at a moment, unless the instruction there
cannot even be looked at. -/
theorem next_stepper (m : Moment) :
    m.next.session.stepper = { (m.session.stepper.stepLine m.line).2 with output := #[] } ∨
    ∃ e, m.session.stepper.peek m.line = .error e ∧
      m.next.session.stepper = m.session.stepper := by
  cases hnext : m.next with
  | going m' =>
    refine Or.inl ?_
    rw [Progress.session, (next_eq_going hnext).2.1, afterLine_stepper]
  | rest u =>
    rcases next_eq_rest hnext with ⟨l, reason, -, rfl⟩ | ⟨pending, hadvance⟩ | ⟨e, hpeek, rfl⟩
    · exact Or.inl (m.session.afterLine_stepper m.line)
    · refine Or.inl ?_
      rcases advance_eq_none hadvance with ⟨e, -, rfl⟩ | ⟨l, -, rfl⟩ | ⟨l, -, rfl⟩ | ⟨-, rfl⟩ <;>
        exact m.session.afterLine_stepper m.line
    · exact Or.inr ⟨e, hpeek, rfl⟩

/-- Leaving a line changes neither the breakpoints nor the program. -/
theorem next_settings (m : Moment) : m.next.session.breakpoints = m.session.breakpoints ∧
    m.next.session.sourceFile = m.session.sourceFile := by
  have hafter := And.intro (m.session.afterLine_breakpoints m.line)
    (m.session.afterLine_sourceFile m.line)
  cases hnext : m.next with
  | going m' =>
    rw [Progress.session, (next_eq_going hnext).2.1]
    exact hafter
  | rest u =>
    rcases next_eq_rest hnext with ⟨l, reason, -, rfl⟩ | ⟨pending, hadvance⟩ | ⟨e, -, rfl⟩
    · exact hafter
    · rcases advance_eq_none hadvance with ⟨e, -, rfl⟩ | ⟨l, -, rfl⟩ | ⟨l, -, rfl⟩ | ⟨-, rfl⟩ <;>
        exact hafter
    · exact ⟨rfl, rfl⟩

end next

theorem at?_succ (m : Moment) (k : Nat) :
    m.at? (k + 1) = match m.next with
      | .going m' => m'.at? k
      | .rest _ => none := by
  induction k with
  | zero => cases h : m.next <;> simp [at?, h]
  | succ k ih =>
    rw [at?, ih]
    cases h : m.next with
    | going m' => rfl
    | rest u => rfl

theorem at?_succ_eq_some {m m' : Moment} {k : Nat} (h : m.at? (k + 1) = some m') :
    ∃ m'', m.at? k = some m'' ∧ m''.next = .going m' := by
  rw [at?] at h
  cases hk : m.at? k with
  | none => simp [hk] at h
  | some m'' =>
    refine ⟨m'', rfl, ?_⟩
    rw [hk] at h
    cases hn : m''.next with
    | rest u => simp [hn] at h
    | going m₁ => simpa [hn] using h

/-- What one line keeps, all lines of a request keep. -/
theorem at?_invariant {I : Moment → Prop} (hstep : ∀ m m' : Moment, I m → m.next = .going m' → I m')
    {m m' : Moment} {k : Nat} (h0 : I m) (h : m.at? k = some m') : I m' := by
  induction k generalizing m' with
  | zero =>
    simp only [at?, Option.some.injEq] at h
    exact h ▸ h0
  | succ k ih =>
    obtain ⟨m'', hk, hn⟩ := at?_succ_eq_some h
    exact hstep m'' m' (ih hk) hn

/-- What sessions keep from one moment to the next, they keep wherever the request comes to rest. -/
theorem Ends.session_invariant {I : Session → Prop} {m : Moment} {u : Session}
    (hnext : ∀ m : Moment, I m.session → I m.next.session) (h : m.Ends u) (h0 : I m.session) :
    I u := by
  obtain ⟨k, m', hat, hrest⟩ := h
  have hm' : I m'.session := by
    refine at?_invariant (I := fun m => I m.session) ?_ h0 hat
    intro m₁ m₂ h₁ hgoing
    have h₂ := hnext m₁ h₁
    rwa [hgoing] at h₂
  have hu := hnext m' hm'
  rwa [hrest] at hu

/-- What leaving a line keeps of the stepper, the whole request keeps, wherever it comes to rest. -/
theorem Ends.stepper_invariant {I : LineStepper → Prop} {m : Moment} {u : Session}
    (hline : ∀ t line, I t → I { (t.stepLine line).2 with output := #[] })
    (h : m.Ends u) (h0 : I m.session.stepper) : I u.stepper := by
  refine h.session_invariant (I := fun s => I s.stepper) (fun m hm => ?_) h0
  rcases m.next_stepper with hstepper | ⟨e, -, hstepper⟩
  · rw [hstepper]
    exact hline _ _ hm
  · rw [hstepper]
    exact hm

theorem ends_of_rest {m : Moment} {s : Session} (h : m.next = .rest s) (u : Session) :
    m.Ends u ↔ u = s := by
  constructor
  · rintro ⟨k, m', hat, hrest⟩
    cases k with
    | zero =>
      simp only [at?, Option.some.injEq] at hat
      subst hat
      simpa [h, eq_comm] using hrest
    | succ k =>
      rw [at?_succ, h] at hat
      simp at hat
  · rintro rfl
    exact ⟨0, m, rfl, h⟩

theorem ends_of_going {m m₁ : Moment} (h : m.next = .going m₁) (u : Session) :
    m.Ends u ↔ m₁.Ends u := by
  constructor
  · rintro ⟨k, m', hat, hrest⟩
    cases k with
    | zero =>
      simp only [at?, Option.some.injEq] at hat
      subst hat
      simp [h] at hrest
    | succ k =>
      rw [at?_succ, h] at hat
      exact ⟨k, m', hat, hrest⟩
  · rintro ⟨k, m', hat, hrest⟩
    exact ⟨k + 1, m', by rw [at?_succ, h]; exact hat, hrest⟩

/-- A request comes to rest in a session if and only if some bound lets it answer with it. -/
theorem ends_iff_finish (m : Moment) (u : Session) : m.Ends u ↔ ∃ fuel, m.finish fuel = some u := by
  constructor
  · rintro ⟨k, m', hat, hrest⟩
    refine ⟨k + 1, ?_⟩
    induction k generalizing m with
    | zero =>
      simp only [at?, Option.some.injEq] at hat
      subst hat
      simp [finish, hrest]
    | succ k ih =>
      rw [at?_succ] at hat
      rw [finish]
      cases hn : m.next with
      | rest s => simp [hn] at hat
      | going m₁ => exact ih m₁ (by simpa [hn] using hat)
  · rintro ⟨fuel, h⟩
    induction fuel generalizing m with
    | zero => simp [finish] at h
    | succ fuel ih =>
      cases hn : m.next with
      | rest s => exact (ends_of_rest hn u).mpr (by simpa [finish, hn, eq_comm] using h)
      | going m₁ => exact (ends_of_going hn u).mpr (ih m₁ (by simpa [finish, hn] using h))

end Moment

section resume

variable (s : Session) (line : Nat)

theorem runFrom_succ (pending : Pending) (fuel : Nat) :
    s.runFrom line pending (fuel + 1) = match Moment.leave ⟨s, line, pending⟩ with
      | .rest u => some u
      | .going m => m.session.runFrom m.line m.pending fuel := by
  rw [runFrom, Moment.leave]
  rcases s.advance line pending with ⟨_ | l, s'⟩
  · rfl
  · simp only
    cases s'.stopReason? pending l <;> rfl

theorem runFrom_eq_finish (pending : Pending) (hpending : pending ≠ .next) (fuel : Nat) :
    s.runFrom line pending fuel = Moment.finish ⟨s, line, pending⟩ fuel := by
  induction fuel generalizing s line with
  | zero => rfl
  | succ fuel ih =>
    rw [runFrom_succ, Moment.finish, Moment.next_of_pending_ne hpending]
    cases hleave : Moment.leave ⟨s, line, pending⟩ with
    | rest u => rfl
    | going m =>
      obtain ⟨-, hm, -⟩ := Moment.leave_eq_going hleave
      rw [hm]
      exact ih _ _

theorem leave_next : ∃ u, Moment.leave ⟨s, line, .next⟩ = .rest u := by
  rw [Moment.leave]
  rcases s.advance line .next with ⟨_ | l, s'⟩
  · exact ⟨s', rfl⟩
  · exact ⟨s'.stop l .step, rfl⟩

theorem stepOver_of_call (fuel : Nat) (hcall : s.stepper.peek line = .ok (some .call)) :
    s.stepOver line fuel = match Moment.enter ⟨s, line, .next⟩ with
      | .rest u => some u
      | .going m => m.finish fuel := by
  simp only [stepOver, hcall, Moment.enter]
  rcases s.advance line .next with ⟨_ | l, s'⟩
  · rfl
  · simp only
    split
    · rfl
    · exact runFrom_eq_finish _ _ _ (by simp) fuel

/-- A step over answers at once, or leaves one line, or goes on as a step out of the callee. -/
theorem stepOver_eq_some_iff (u : Session) :
    (∃ fuel, s.stepOver line fuel = some u) ↔ Moment.Ends ⟨s, line, .next⟩ u := by
  rcases hpeek : s.stepper.peek line with e | kind
  · have hnext : (Moment.mk s line .next).next = .rest (s.fail line e.message) := by
      simp only [Moment.next, hpeek]
    rw [Moment.ends_of_rest hnext]
    simp [stepOver, hpeek, eq_comm]
  by_cases hcall : kind = some .call
  · subst hcall
    have hnext : (Moment.mk s line .next).next = Moment.enter ⟨s, line, .next⟩ := by
      simp only [Moment.next, hpeek]
    cases henter : Moment.enter ⟨s, line, .next⟩ with
    | rest v =>
      rw [Moment.ends_of_rest (hnext.trans henter)]
      simp [stepOver_of_call s line _ hpeek, henter, eq_comm]
    | going m =>
      rw [Moment.ends_of_going (hnext.trans henter), Moment.ends_iff_finish]
      simp [stepOver_of_call s line _ hpeek, henter]
  · have hnext : (Moment.mk s line .next).next = Moment.leave ⟨s, line, .next⟩ :=
      Moment.next_of_peek_ne hpeek hcall
    have hrun (fuel : Nat) : s.stepOver line fuel = s.runFrom line .next fuel := by
      rcases kind with _ | kind
      · simp only [stepOver, hpeek]
      · cases kind with
        | call => exact absurd rfl hcall
        | _ => simp only [stepOver, hpeek]
    obtain ⟨v, hv⟩ := s.leave_next line
    rw [Moment.ends_of_rest (hnext.trans hv)]
    simp only [hrun]
    constructor
    · rintro ⟨fuel, h⟩
      cases fuel with
      | zero => simp [runFrom] at h
      | succ fuel => simpa [runFrom_succ, hv, eq_comm] using h
    · rintro rfl
      exact ⟨1, by rw [runFrom_succ, hv]⟩

theorem resume_next (hline : s.standing? = some line) (fuel : Nat) :
    s.resume .next fuel = (s.stepOver line fuel).map (.ok (), ·) := by
  unfold standing? at hline
  cases hs : s.state <;> simp_all [resume]

theorem resume_of_pending_ne (hline : s.standing? = some line) (pending : Pending)
    (hpending : pending ≠ .next) (fuel : Nat) :
    s.resume pending fuel = (Moment.finish ⟨s, line, pending⟩ fuel).map (.ok (), ·) := by
  rw [← runFrom_eq_finish s line pending hpending]
  unfold standing? at hline
  cases hs : s.state <;> simp_all [resume]

theorem resume_eq_some_iff (pending : Pending) (r : Except Error Unit) (u : Session)
    (hline : s.standing? = some line) :
    (∃ fuel, s.resume pending fuel = some (r, u)) ↔
      r = .ok () ∧ Moment.Ends ⟨s, line, pending⟩ u := by
  by_cases hpending : pending = .next
  · subst hpending
    rw [← stepOver_eq_some_iff]
    simp only [resume_next s line hline, Option.map_eq_some_iff, Prod.mk.injEq]
    grind
  · rw [Moment.ends_iff_finish]
    simp only [resume_of_pending_ne s line hline pending hpending, Option.map_eq_some_iff,
      Prod.mk.injEq]
    grind

end resume

end Comet.Session
