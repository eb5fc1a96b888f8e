import Comet.Proofs.Debug.Goal
import Comet.Proofs.Debug.StackFrames

namespace Comet

/-- A call that has not returned: the line from which it was made and the subroutine that it has
entered. -/
structure OpenCall where
  line : Nat
  callee : String
  deriving DecidableEq, Repr

/-- What an instruction that has been executed means to the frames. -/
inductive Transfer
  | call (c : OpenCall)
  | ret
  deriving DecidableEq, Repr

namespace Transfer

/-- A call is noted on the innermost frame and adds the frame of its callee. A return removes the
innermost frame, if there is another one. -/
def onFrames : List Frame → Transfer → List Frame
  | [], call c => [⟨c.callee, none⟩]
  | caller :: rest, call c => ⟨c.callee, none⟩ :: { caller with callLine := some c.line } :: rest
  | _ :: caller :: rest, ret => caller :: rest
  | frames, ret => frames

def onCalls : List OpenCall → Transfer → List OpenCall
  | calls, call c => c :: calls
  | calls, ret => calls.tail

/-- The calls that have not returned, innermost first. A return from the outermost subroutine
returns from no call. -/
def openCalls (history : List Transfer) : List OpenCall := history.foldl onCalls []

end Transfer

namespace CallStack

/-- The frames of the open calls. The innermost one may still have the line of a call that has
returned to it. -/
def framesOf (entry : String) (latest : Option Nat) : List OpenCall → List Frame
  | [] => [⟨entry, latest⟩]
  | c :: calls => ⟨c.callee, latest⟩ :: framesOf entry (some c.line) calls

/-- The stack is what a history of calls and returns makes of the frame of the entry. -/
structure Follows (stack : CallStack) (entry : String) (history : List Transfer) : Prop where
  fold : stack.frames = history.foldl Transfer.onFrames [⟨entry, none⟩]
  outermost : stack.outermostFirst.head?.map (·.subroutine) = some entry
  names : stack.frames.map (·.subroutine) =
    (Transfer.openCalls history).map (·.callee) ++ [entry]
  callLines : stack.frames.tail.map (·.callLine) =
    (Transfer.openCalls history).map fun c => some c.line

section frames

variable {entry : String} {stack : CallStack} {history : List Transfer}

theorem frames_enter (stack : CallStack) (c : OpenCall) :
    (stack.enter c.line c.callee).frames = Transfer.onFrames stack.frames (.call c) := by
  obtain ⟨_ | ⟨caller, rest⟩⟩ := stack <;> rfl

theorem frames_leave (stack : CallStack) :
    stack.leave.2.frames = Transfer.onFrames stack.frames .ret := by
  obtain ⟨_ | ⟨innermost, _ | ⟨caller, rest⟩⟩⟩ := stack <;> rfl

theorem onFrames_framesOf (entry : String) (latest : Option Nat) (calls : List OpenCall)
    (x : Transfer) :
    ∃ latest', Transfer.onFrames (framesOf entry latest calls) x =
      framesOf entry latest' (Transfer.onCalls calls x) := by
  cases x with
  | call c =>
    refine ⟨none, ?_⟩
    cases calls <;> rfl
  | ret =>
    cases calls with
    | nil => exact ⟨latest, rfl⟩
    | cons c calls =>
      refine ⟨some c.line, ?_⟩
      cases calls <;> rfl

theorem exists_foldl_framesOf (entry : String) (history : List Transfer) (latest : Option Nat)
    (calls : List OpenCall) :
    ∃ latest', history.foldl Transfer.onFrames (framesOf entry latest calls) =
      framesOf entry latest' (history.foldl Transfer.onCalls calls) := by
  induction history generalizing latest calls with
  | nil => exact ⟨latest, rfl⟩
  | cons x history ih =>
    obtain ⟨next, hnext⟩ := onFrames_framesOf entry latest calls x
    rw [List.foldl_cons, hnext]
    exact ih next (Transfer.onCalls calls x)

theorem map_subroutine_framesOf (entry : String) (latest : Option Nat) (calls : List OpenCall) :
    (framesOf entry latest calls).map (·.subroutine) = calls.map (·.callee) ++ [entry] := by
  induction calls generalizing latest with
  | nil => rfl
  | cons c calls ih => rw [framesOf, List.map_cons, ih]; rfl

theorem map_callLine_framesOf (entry : String) (latest : Option Nat) (calls : List OpenCall) :
    (framesOf entry latest calls).map (·.callLine) =
      latest :: calls.map fun c => some c.line := by
  induction calls generalizing latest with
  | nil => rfl
  | cons c calls ih => rw [framesOf, List.map_cons, ih]; rfl

theorem exists_framesOf (h : stack.frames = history.foldl Transfer.onFrames [⟨entry, none⟩]) :
    ∃ latest, stack.frames = framesOf entry latest (Transfer.openCalls history) := by
  obtain ⟨latest, hlatest⟩ := exists_foldl_framesOf entry history none []
  exact ⟨latest, h.trans hlatest⟩

theorem follows_of_fold (h : stack.frames = history.foldl Transfer.onFrames [⟨entry, none⟩]) :
    stack.Follows entry history := by
  obtain ⟨latest, hframes⟩ := exists_framesOf h
  have hnames := map_subroutine_framesOf entry latest (Transfer.openCalls history)
  have hlines := map_callLine_framesOf entry latest (Transfer.openCalls history)
  rw [← hframes] at hnames hlines
  refine ⟨h, ?_, hnames, ?_⟩
  · rw [outermostFirst, List.head?_reverse, ← List.getLast?_map, hnames, List.getLast?_concat]
  · rw [List.map_tail, hlines, List.tail_cons]

end frames

end CallStack

namespace LineStepper

/-- The subroutine whose entry is at the program counter. -/
def subroutine? (t : LineStepper) : Option Subroutine :=
  t.program.bind (·.debug.subroutineAt t.machine.pr)

/-- What leaving the line means to the frames: it executes a call that arrives somewhere, or a
return with which the program does not end. -/
def transfer? (t : LineStepper) (line : Nat) : Option Transfer :=
  match t.executed? line, (t.stepLine line).1 with
  | some i, .ok outcome => match i.mnemonic, outcome with
    | .call, _ => (t.stepLine line).2.subroutine?.map fun callee => .call ⟨line, callee.name⟩
    | .ret, .moved _ => some .ret
    | _, _ => none
  | _, _ => none

/-- What leaving the line does to the frames. A call that is no error adds the frame of the
subroutine at which the program counter has arrived, a return with which the program does not end
removes one, and anything else leaves the frames as they are. -/
inductive StepsFrames (t : LineStepper) (line : Nat) : Option Transfer → Prop
  | called (i : Instruction) (outcome : LineStep) (callee : Subroutine)
      (hi : t.executed? line = some i) (hcall : i.mnemonic = .call)
      (hok : (t.stepLine line).1 = .ok outcome)
      (hcallee : (t.stepLine line).2.subroutine? = some callee)
      (hframes : (t.stepLine line).2.stack.frames =
        Transfer.onFrames t.stack.frames (.call ⟨line, callee.name⟩)) :
      StepsFrames t line (some (.call ⟨line, callee.name⟩))
  | returned (i : Instruction) (next : Option Nat) (hi : t.executed? line = some i)
      (hret : i.mnemonic = .ret) (hmoved : (t.stepLine line).1 = .ok (.moved next))
      (hframes : (t.stepLine line).2.stack.frames = Transfer.onFrames t.stack.frames .ret) :
      StepsFrames t line (some .ret)
  | other
      (hcall : ∀ i outcome, t.executed? line = some i → i.mnemonic = .call →
        (t.stepLine line).1 ≠ .ok outcome)
      (hret : ∀ i next, t.executed? line = some i → i.mnemonic = .ret →
        (t.stepLine line).1 ≠ .ok (.moved next))
      (hstack : (t.stepLine line).2.stack = t.stack) : StepsFrames t line none

/-- A client drives the stepper `t₀` on to the stepper `t`, leaving any lines that it likes, and no
step so far has ended the program. The calls and returns that have been executed are the history,
the earliest first. -/
inductive Stepped (t₀ : LineStepper) : LineStepper → List Transfer → Prop
  | launched : Stepped t₀ t₀ []
  | left {t : LineStepper} {history : List Transfer} (line : Nat) (h : Stepped t₀ t history)
      (hgoes : ∀ next, (t.stepLine line).1 ≠ .ok (.ended next)) :
      Stepped t₀ (t.stepLine line).2 (history ++ (t.transfer? line).toList)
  | given {t : LineStepper} {history : List Transfer} (text : String) (h : Stepped t₀ t history) :
      Stepped t₀ (t.setInput text) history
  | taken {t : LineStepper} {history : List Transfer} (h : Stepped t₀ t history) :
      Stepped t₀ t.takeOutput.2 history

section steps

variable {s t t₀ : LineStepper} {p : Program} {line : Nat} {history : List Transfer}

/-- A step that fails leaves the frames alone, even one that has executed a call. -/
theorem stepLine_stack_of_error {e : StepError} (h : (t.stepLine line).1 = .error e) :
    (t.stepLine line).2.stack = t.stack := by
  cases hp : t.program with
  | none => simp [stepLine, hp]
  | some p =>
    have hleaves := t.stepLine_leaves p line hp
    generalize (t.stepLine line).1 = result, (t.stepLine line).2 = t' at h hleaves ⊢
    cases hleaves with
    | start | undecoded | gate | fault => rfl
    | executed hentry kind hkind hgate halted hrun =>
      rw [settle_answer] at h
      by_cases hnowhere : kind = .call ∧ p.debug.subroutineAt
          t.execute.2.machine.pr = none
      · obtain ⟨rfl, hnone⟩ := hnowhere
        simp only [settle, hnone]
        rfl
      · rw [if_neg hnowhere] at h
        cases h

theorem stepsFrames_of_call {i : Instruction} {outcome : LineStep} {halted : Bool}
    (hp : t.program = some p) (hsome : t.executed? line = some i) (hcall : i.mnemonic = .call)
    (hresult : (t.stepLine line).1 = .ok outcome)
    (hstep : t.stepLine line = t.execute.2.settle p.debug line i.kind halted) :
    t.StepsFrames line (t.transfer? line) := by
  have hprogram : (t.stepLine line).2.program = some p := stepLine_program hp
  rw [i.kind_eq_call_iff.mpr hcall] at hstep
  have hsettled : (t.execute.2.settle p.debug line .call halted).1 = .ok outcome := by
    rw [← hstep, hresult]
  obtain ⟨callee, hcallee, hentered⟩ := settle_call hsettled
  have harrived : (t.stepLine line).2.subroutine? = some callee := by
    rw [subroutine?, hprogram, hstep, settle_machine]
    exact hcallee
  have htransfer : t.transfer? line = some (.call ⟨line, callee.name⟩) := by
    simp only [transfer?, hsome, hresult, hcall, harrived, Option.map_some]
  rw [htransfer]
  refine .called i outcome callee hsome hcall hresult harrived ?_
  rw [hstep, hentered]
  exact CallStack.frames_enter t.stack ⟨line, callee.name⟩

theorem stepsFrames_of_ret {i : Instruction} {halted : Bool} (hsome : t.executed? line = some i)
    (hret : i.mnemonic = .ret)
    (hstep : t.stepLine line = t.execute.2.settle p.debug line i.kind halted) :
    t.StepsFrames line (t.transfer? line) := by
  rw [i.kind_eq_ret_iff.mpr hret] at hstep
  have hno_call (i' : Instruction) (hsome' : t.executed? line = some i') :
      i'.mnemonic ≠ .call := by
    rw [← Option.some.inj (hsome.symm.trans hsome'), hret]
    simp
  cases halted with
  | true =>
    have hended : ∃ next, (t.stepLine line).1 = .ok (.ended next) := ⟨_, by rw [hstep]; rfl⟩
    obtain ⟨next, hended⟩ := hended
    have htransfer : t.transfer? line = none := by simp [transfer?, hsome, hended, hret]
    rw [htransfer]
    refine .other (fun i' _ hi' hcall => absurd hcall (hno_call i' hi')) ?_ (by rw [hstep]; rfl)
    rintro i' next' - - hmoved
    rw [hended] at hmoved
    cases hmoved
  | false =>
    have hmoved : ∃ next, (t.stepLine line).1 = .ok (.moved next) := ⟨_, by rw [hstep]; rfl⟩
    obtain ⟨next, hmoved⟩ := hmoved
    have htransfer : t.transfer? line = some .ret := by simp [transfer?, hsome, hmoved, hret]
    rw [htransfer]
    refine .returned i next hsome hret hmoved ?_
    rw [hstep]
    exact CallStack.frames_leave t.stack

/-- A step that executes neither a call nor a return, or that fails, leaves the frames alone. -/
theorem stepsFrames_of_same (hstack : (t.stepLine line).2.stack = t.stack)
    (hother : (∀ i, t.executed? line = some i → i.mnemonic ≠ .call ∧ i.mnemonic ≠ .ret) ∨
      ∃ e, (t.stepLine line).1 = .error e) :
    t.StepsFrames line (t.transfer? line) := by
  rcases hother with hother | ⟨e, herror⟩
  · have htransfer : t.transfer? line = none := by
      unfold transfer?
      cases hi : t.executed? line with
      | none => rfl
      | some i =>
        obtain ⟨hcall, hret⟩ := hother i hi
        cases (t.stepLine line).1 with
        | error e => rfl
        | ok outcome =>
          cases hmnemonic : i.mnemonic with
          | call => exact absurd hmnemonic hcall
          | ret => exact absurd hmnemonic hret
          | _ => simp only [hmnemonic]
    rw [htransfer]
    exact .other (fun i _ hi hcall => absurd hcall (hother i hi).1)
      (fun i _ hi hret => absurd hret (hother i hi).2) hstack
  · have htransfer : t.transfer? line = none := by
      rw [transfer?, herror]
      cases t.executed? line <;> rfl
    rw [htransfer]
    exact .other (by simp [herror]) (by simp [herror]) hstack

theorem stepsFrames (hp : t.program = some p) (line : Nat) :
    t.StepsFrames line (t.transfer? line) := by
  cases hresult : (t.stepLine line).1 with
  | error e => exact stepsFrames_of_same (stepLine_stack_of_error hresult) (Or.inr ⟨e, hresult⟩)
  | ok outcome =>
    rcases stepLine_executed hp hresult with ⟨hnone, hsame, -⟩ | ⟨i, halted, hsome, -, -, hstep⟩
    · exact stepsFrames_of_same (by rw [hsame]) (Or.inl (by simp [hnone]))
    · by_cases hcall : i.mnemonic = .call
      · exact stepsFrames_of_call hp hsome hcall hresult hstep
      · by_cases hret : i.mnemonic = .ret
        · exact stepsFrames_of_ret hsome hret hstep
        · refine stepsFrames_of_same ?_ (Or.inl ?_)
          · rw [hstep]
            exact settle_stack_of_other (fun hk => hcall (i.kind_eq_call_iff.mp hk))
              (fun hk => hret (i.kind_eq_ret_iff.mp hk)) p.debug halted
          · intro i' hsome'
            rw [← Option.some.inj (hsome.symm.trans hsome')]
            exact ⟨hcall, hret⟩

theorem StepsFrames.frames {x : Option Transfer} (h : t.StepsFrames line x) :
    (t.stepLine line).2.stack.frames = x.toList.foldl Transfer.onFrames t.stack.frames := by
  cases h with
  | called _ _ _ _ _ _ _ hframes => exact hframes
  | returned _ _ _ _ _ hframes => exact hframes
  | other _ _ hstack => exact congrArg CallStack.frames hstack

theorem Stepped.follows {entry : String} (h : Stepped t₀ t history) (hp : t₀.program = some p)
    (hstack : t₀.stack = .start entry) : t.program = some p ∧ t.stack.Follows entry history := by
  suffices t.program = some p ∧
      t.stack.frames = history.foldl Transfer.onFrames [⟨entry, none⟩] from
    ⟨this.1, CallStack.follows_of_fold this.2⟩
  induction h with
  | launched => exact ⟨hp, by rw [hstack]; rfl⟩
  | left line _ _ ih =>
    refine ⟨stepLine_program ih.1, ?_⟩
    rw [List.foldl_append, ← ih.2]
    exact (stepsFrames ih.1 line).frames
  | given _ _ ih => exact ih
  | taken _ ih => exact ih

end steps

/-- The step has failed, so that there is no line to go on from. -/
def Fails (t : LineStepper) (line : Nat) : Prop :=
  (∃ e, (t.stepLine line).1 = .error e) ∨ (t.stepLine line).1 = .ok (.moved none)

/-- A session drives the stepper: it leaves the line at which it is and is then at the next one. It
stays at a line that it cannot leave. -/
inductive Walks (t₀ : LineStepper) : LineStepper → Nat → List Transfer → Prop
  | launched : Walks t₀ t₀ 0 []
  | left {t : LineStepper} {line : Nat} {history : List Transfer} (h : Walks t₀ t line history)
      (next : Nat) (hmoved : (t.stepLine line).1 = .ok (.moved (some next))) :
      Walks t₀ (t.stepLine line).2 next (history ++ (t.transfer? line).toList)
  | failed {t : LineStepper} {line : Nat} {history : List Transfer} (h : Walks t₀ t line history)
      (hfails : t.Fails line) :
      Walks t₀ (t.stepLine line).2 line (history ++ (t.transfer? line).toList)
  | given {t : LineStepper} {line : Nat} {history : List Transfer} (text : String)
      (h : Walks t₀ t line history) : Walks t₀ (t.setInput text) line history
  | taken {t : LineStepper} {line : Nat} {history : List Transfer} (h : Walks t₀ t line history) :
      Walks t₀ t.takeOutput.2 line history

theorem Walks.stepped {t₀ t : LineStepper} {line : Nat} {history : List Transfer}
    (h : Walks t₀ t line history) : Stepped t₀ t history := by
  induction h with
  | launched => exact .launched
  | left _ next hmoved ih => exact .left _ ih (by simp [hmoved])
  | failed _ hfails ih =>
    refine .left _ ih ?_
    intro next hended
    rcases hfails with ⟨e, herror⟩ | hmoved
    · rw [herror] at hended
      cases hended
    · rw [hmoved] at hended
      cases hended
  | given text _ ih => exact .given text ih
  | taken _ ih => exact .taken ih

end LineStepper

namespace Session

/-- The frames as they are shown, innermost first: each open call is at the line of the call that
it has made itself, and the innermost one at the current line. -/
def shown (entry : String) (line : Nat) : List OpenCall → List FrameView
  | [] => [⟨0, entry, line⟩]
  | c :: calls => ⟨calls.length + 1, c.callee, line⟩ :: shown entry c.line calls

section views

variable {entry : String}

theorem length_framesOf (latest : Option Nat) (calls : List OpenCall) :
    (CallStack.framesOf entry latest calls).length = calls.length + 1 := by
  have hlines := congrArg List.length (CallStack.map_callLine_framesOf entry latest calls)
  simpa using hlines

/-- All callers are at the line of a call, so the current line is shown for none of them. -/
theorem mapIdx_callers (current line : Nat) (calls : List OpenCall) :
    (CallStack.framesOf entry (some line) calls).mapIdx
        (fun i f => FrameView.mk (calls.length - i) f.subroutine (f.callLine.getD current)) =
      shown entry line calls := by
  induction calls generalizing line with
  | nil => rfl
  | cons c calls ih =>
    rw [CallStack.framesOf, List.mapIdx_cons, shown, ← ih c.line]
    simp only [List.length_cons, Nat.add_sub_add_right, Nat.sub_zero, Option.getD_some]

theorem frameViews_framesOf (line : Nat) (latest : Option Nat) (calls : List OpenCall) :
    frameViews line ⟨CallStack.framesOf entry latest calls⟩ = shown entry line calls := by
  cases calls with
  | nil => rfl
  | cons c calls =>
    have hnumbers (i : Nat) : calls.length + 1 - 1 - i = calls.length - i := by
      rw [Nat.add_sub_cancel]
    simp only [frameViews, CallStack.framesOf, shown, length_framesOf, hnumbers, mapIdx_callers]

end views

/-- A property of a stepper and its line that is kept by the steps that fail, too. -/
structure KeptThroughout (I : LineStepper → Nat → Prop) : Prop extends Kept I where
  failed : ∀ {t : LineStepper} {line : Nat}, I t line → t.Fails line → I (t.stepLine line).2 line

section reachable

variable {assembler : Assembler} {s u : Session} {I : LineStepper → Nat → Prop} {line : Nat}

theorem Settled.currentLine (h : s.Settled u) (hline : u.currentLine = some line) :
    s.currentLine = some line := by
  rcases h.2.2 with hstate | hstate
  · rwa [Session.currentLine, hstate] at hline
  · simp [Session.currentLine, hstate] at hline

theorem KeptThroughout.ends {m : Moment} (hI : KeptThroughout I)
    (h0 : I m.session.stepper m.line) (h : m.Ends u) (hline : u.currentLine = some line) :
    I u.stepper line := by
  cases hstanding : u.standing? with
  | some l =>
    have hl : l = line :=
      Option.some.inj ((currentLine_eq_of_standing? hstanding).symm.trans hline)
    rw [← hl]
    exact hI.toKept.ends h0 h hstanding
  | none =>
    obtain ⟨k, m', hat, hrest⟩ := h
    have h' := hI.at? h0 hat
    have hfailed (message : String) (hfailing : m'.session.stepper.Fails m'.line)
        (hl : ((m'.session.afterLine m'.line).fail m'.line message).currentLine = some line) :
        I (m'.session.afterLine m'.line).stepper line := by
      rw [← Option.some.inj hl, afterLine_stepper]
      exact hI.output (hI.failed h' hfailing)
    rcases Moment.next_eq_rest hrest with
      ⟨l, reason, -, rfl⟩ | ⟨pending, hadvance⟩ | ⟨e, -, rfl⟩
    · cases hstanding
    · rcases advance_eq_none hadvance with
        ⟨e, herror, rfl⟩ | ⟨l, -, rfl⟩ | ⟨l, -, rfl⟩ | ⟨hmoved, rfl⟩
      · exact hfailed _ (Or.inl ⟨e, herror⟩) hline
      · cases hline
      · cases hstanding
      · exact hfailed _ (Or.inr hmoved) hline
    · rw [← Option.some.inj hline]
      exact h'

/-- What every program just loaded has at line 0, all sessions at a line have there. -/
theorem KeptThroughout.reaches (hI : KeptThroughout I)
    (hload : ∀ {s t : Session} {readText : ReadText} {l : Launch},
      s.Loads assembler readText l t → I t.stepper 0)
    (h : Reaches assembler {} u) : ∀ line, u.currentLine = some line → I u.stepper line := by
  induction h with
  | refl => exact fun _ hline => by cases hline
  | @tail t u r fuel _ hr ih =>
    intro line hline
    rcases after_cases hr with
      ⟨m, hstart, hends⟩ | ⟨readText, l, t', reason, -, hloads, rfl⟩ | hsettled
    · have hstands (l : Nat) (hl : t.standing? = some l) : I t.stepper l :=
        ih l (currentLine_eq_of_standing? hl)
      have hstarts := hI.starts (fun _ hloads => hload hloads) hstands hstart
      exact hI.ends hstarts hends hline
    · have hloaded := hload hloads
      rw [← Option.some.inj hline]
      exact hloaded
    · rw [hsettled.1]
      exact ih line (hsettled.currentLine hline)

/-- The session's stepper has been launched and has walked to the line. -/
def HasWalked (t : LineStepper) (line : Nat) : Prop :=
  ∃ s compiled options t₀ history, LineStepper.launch s compiled options = (.ok [], t₀) ∧
    LineStepper.Walks t₀ t line history

theorem keptThroughout_hasWalked : KeptThroughout HasWalked where
  moved := by
    rintro t line l ⟨s, compiled, options, t₀, history, hlaunch, hwalks⟩ hmoved
    exact ⟨s, compiled, options, t₀, _, hlaunch, hwalks.left l hmoved⟩
  input := by
    rintro t line text ⟨s, compiled, options, t₀, history, hlaunch, hwalks⟩
    exact ⟨s, compiled, options, t₀, history, hlaunch, hwalks.given text⟩
  output := by
    rintro t line ⟨s, compiled, options, t₀, history, hlaunch, hwalks⟩
    exact ⟨s, compiled, options, t₀, history, hlaunch, hwalks.taken⟩
  failed := by
    rintro t line ⟨s, compiled, options, t₀, history, hlaunch, hwalks⟩ hfails
    exact ⟨s, compiled, options, t₀, _, hlaunch, hwalks.failed hfails⟩

theorem hasWalked_of_reaches (h : Reaches assembler {} u) (hline : u.currentLine = some line) :
    HasWalked u.stepper line := by
  refine keptThroughout_hasWalked.reaches ?_ h line hline
  rintro s t readText l ⟨-, -, source, stepper, -, hlaunch, rfl⟩
  exact ⟨s.stepper, _, _, stepper, [], hlaunch, .launched⟩

theorem stackTrace_of_frames {entry : String} {history : List Transfer}
    (hline : u.currentLine = some line)
    (hframes : u.stepper.stack.frames = history.foldl Transfer.onFrames [⟨entry, none⟩])
    (start : Nat) (levels : Option Nat) :
    (u.stackTrace start levels).totalFrames = (Transfer.openCalls history).length + 1 ∧
      ∀ k, (u.stackTrace start levels).frames[k]? =
        if levels.getD 0 = 0 ∨ k < levels.getD 0 then
          (shown entry line (Transfer.openCalls history))[start + k]?
        else none := by
  obtain ⟨latest, hlatest⟩ := CallStack.exists_framesOf hframes
  have hviews : frameViews line u.stepper.stack =
      shown entry line (Transfer.openCalls history) := by
    rw [← frameViews_framesOf line latest, ← hlatest]
  simp only [stackTrace, hline, hviews]
  refine ⟨by rw [CallStack.depth, hlatest, length_framesOf], ?_⟩
  intro k
  cases levels with
  | none => simp
  | some n =>
    cases n with
    | zero => simp
    | succ n => simp [List.getElem?_take]

end reachable

end Session

theorem LineStepper.launched_entry {s t₀ : LineStepper} {compiled : Assembled}
    {options : MachineOptions} (h : s.launch compiled options = (.ok [], t₀)) :
    ∃ p entry, compiled.program = some p ∧ p.debug.entrySubroutine = some entry ∧
      t₀.program = some p ∧ t₀.stack = .start entry.name := by
  rcases s.launch_cases compiled options with
    ⟨p, m, entry, -, hp, hentry, -, hlaunch⟩ | ⟨hfailed, -⟩
  · rw [hlaunch, Prod.mk.injEq] at h
    obtain ⟨-, rfl⟩ := h
    exact ⟨p, entry, hp, hentry, rfl, rfl⟩
  · rw [h] at hfailed
    exact absurd rfl hfailed

/-- The frames are the fold of the calls and returns that have been executed. However a client
drives a program that has been launched, there is a frame for the entry and one for each open call,
all but the innermost with the line of their call, and each step does to them what its instruction
means. So a session at a line shows the open calls of its own walk, or the part of them that is
asked for: the innermost frame at the current line and the others at the line of the call that they
wait for. -/
theorem frames_fold_calls_and_returns (assembler : Assembler) :
    (∀ (s t₀ t : LineStepper) (compiled : Assembled) (options : MachineOptions)
      (history : List Transfer),
      s.launch compiled options = (.ok [], t₀) → LineStepper.Stepped t₀ t history →
      ∃ p entry, compiled.program = some p ∧ p.debug.entrySubroutine = some entry ∧
        t.stack.Follows entry.name history ∧ ∀ line, t.StepsFrames line (t.transfer? line)) ∧
    ∀ (u : Session) (line : Nat), Session.Reaches assembler {} u → u.currentLine = some line →
      ∃ s t₀ compiled options history p entry,
        LineStepper.launch s compiled options = (.ok [], t₀) ∧
        LineStepper.Walks t₀ u.stepper line history ∧
        compiled.program = some p ∧ p.debug.entrySubroutine = some entry ∧
        ∀ start levels,
          (u.stackTrace start levels).totalFrames = (Transfer.openCalls history).length + 1 ∧
          ∀ k, (u.stackTrace start levels).frames[k]? =
            if levels.getD 0 = 0 ∨ k < levels.getD 0 then
              (Session.shown entry.name line (Transfer.openCalls history))[start + k]?
            else none := by
  constructor
  · intro s t₀ t compiled options history hlaunch hstepped
    obtain ⟨p, entry, hp, hentry, hloaded, hstack⟩ := LineStepper.launched_entry hlaunch
    obtain ⟨hprogram, hfollows⟩ := hstepped.follows hloaded hstack
    exact ⟨p, entry, hp, hentry, hfollows, LineStepper.stepsFrames hprogram⟩
  · intro u line hreaches hline
    obtain ⟨s, compiled, options, t₀, history, hlaunch, hwalks⟩ :=
      Session.hasWalked_of_reaches hreaches hline
    obtain ⟨p, entry, hp, hentry, hloaded, hstack⟩ := LineStepper.launched_entry hlaunch
    obtain ⟨-, hfollows⟩ := hwalks.stepped.follows hloaded hstack
    exact ⟨s, t₀, compiled, options, history, p, entry, hlaunch, hwalks, hp, hentry,
      Session.stackTrace_of_frames hline hfollows.fold⟩

/-- Stops in the subroutine, before it puts a value on the stack. -/
def savingRequests : List (Session.Request × Nat) :=
  [(.launch (fun _ => .ok LineStepper.savingSource) { program := "p.cas", stopOnEntry := true }, 0),
    (.stepIn, 1), (.stepIn, 1), (.stepIn, 1)]

/-- The walk of the session has one open call, and the frame behind it is shown at its line. -/
theorem saving_subroutine_shown : ∃ u t₀ history entry,
    ({} : Session).afterAll assemble savingRequests = some u ∧
    LineStepper.Walks t₀ u.stepper 5 history ∧
    Session.shown entry 5 (Transfer.openCalls history) = [⟨1, "SUB", 5⟩, ⟨0, "MAIN", 1⟩] := by
  have hrun : (({} : Session).afterAll assemble savingRequests).map
      (fun u => (u.currentLine, (u.stackTrace 0 none).frames)) =
      some (some 5, [⟨1, "SUB", 5⟩, ⟨0, "MAIN", 1⟩]) := by decide +kernel
  obtain ⟨u, hu, hfacts⟩ := Option.map_eq_some_iff.mp hrun
  obtain ⟨hline, hframes⟩ := Prod.mk.inj hfacts
  obtain ⟨-, t₀, -, -, history, -, entry, -, hwalks, -, -, htrace⟩ :=
    (frames_fold_calls_and_returns assemble).2 u 5 (Session.reaches_of_afterAll hu) hline
  refine ⟨u, t₀, history, entry.name, hu, hwalks, ?_⟩
  rw [← hframes]
  apply List.ext_getElem?
  intro k
  simp [(htrace 0 none).2 k]

end Comet
