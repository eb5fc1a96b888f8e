import Comet.Proofs.Debug.LineStep
import Comet.Proofs.Machine.StraightLine
import Mathlib.Data.List.GetD

/-! Launching a program in a stepper that has been in use. A launch goes over the stepper and its
machine field by field, and may be refused on the way. It comes to the same as a launch in a stepper
that is new: whatever is refused is refused in front of the first field, and no field is left
out. -/
namespace Comet

namespace WordTree

variable {depth : Nat}

/-- Only the remainder of an index counts. -/
theorem get_congr (t : WordTree depth) {i j : Nat} (h : i % span depth = j % span depth) :
    t.get i = t.get j := by
  induction t with
  | leaf w => rfl
  | @node depth low high ihl ihh =>
    have hi := Nat.mod_lt i (span_pos depth)
    have hj := Nat.mod_lt j (span_pos depth)
    rw [mod_span_succ, mod_span_succ] at h
    have hbit : i.testBit depth = j.testBit depth := by
      cases hi' : i.testBit depth <;> cases hj' : j.testBit depth <;> simp [hi', hj'] at h ⊢ <;>
        omega
    have hrest : i % span depth = j % span depth := by
      rw [hbit] at h
      omega
    rw [get, get, hbit, ihl hrest, ihh hrest]

/-- Trees are told apart by what is found in them. -/
theorem eq_of_get {t u : WordTree depth} (h : ∀ i, t.get i = u.get i) : t = u := by
  induction t with
  | leaf w =>
    cases u with
    | leaf v => exact congrArg leaf (h 0)
  | @node depth low high ihl ihh =>
    cases u with
    | node low' high' =>
      have hlow (i : Nat) : (i % span depth).testBit depth = false := by
        apply Nat.testBit_lt_two_pow
        rw [← Nat.one_shiftLeft]
        exact Nat.mod_lt i (span_pos depth)
      have hhigh (i : Nat) : (span depth + i % span depth).testBit depth = true := by
        have hadd := Nat.testBit_two_pow_add_eq (i % span depth) depth
        rw [hlow, ← Nat.one_shiftLeft] at hadd
        exact hadd
      congr 1
      · apply ihl
        intro i
        have hget := h (i % span depth)
        simp only [get, hlow, Bool.false_eq_true, if_false] at hget
        have hmod : i % span depth % span depth = i % span depth := Nat.mod_mod _ _
        rwa [low.get_congr hmod, low'.get_congr hmod] at hget
      · apply ihh
        intro i
        have hget := h (span depth + i % span depth)
        simp only [get, hhigh, if_true] at hget
        have hmod : (span depth + i % span depth) % span depth = i % span depth := by
          rw [Nat.add_mod_left, Nat.mod_mod]
        rwa [high.get_congr hmod, high'.get_congr hmod] at hget

end WordTree

namespace Memory

theorem eq_of_read {m m' : Memory} (h : ∀ a, m.read a = m'.read a) : m = m' := by
  apply congrArg Memory.mk
  apply WordTree.eq_of_get
  intro i
  -- Every index is that of an address, but for a multiple of the number of addresses.
  have hmod : i % WordTree.span 16 = (UInt16.ofNat i).toNat % WordTree.span 16 := by
    rw [WordTree.mod_span, UInt16.toNat_ofNat']
    rfl
  rw [m.cells.get_congr hmod, m'.cells.get_congr hmod]
  exact h (.ofNat i)

/-- Words that fit may as well be written over zeros. -/
theorem writeAll_zero {ws : List Word} (h : ws.length ≤ memorySize) :
    zero.writeAll 0 ws = load ws := by
  apply eq_of_read
  intro a
  have ha : 0 + UInt16.ofNat a.toNat = a := by rw [UInt16.ofNat_toNat, UInt16.zero_add]
  rw [read_load]
  by_cases hlt : a.toNat < ws.length
  · have hread := read_writeAll_of_lt zero 0 hlt h
    rw [ha] at hread
    rw [hread, List.getD_eq_getElem _ _ hlt]
  · have hapart : ∀ k < ws.length, a ≠ 0 + UInt16.ofNat k := by
      intro k hk heq
      have hsame : 0 + UInt16.ofNat a.toNat = 0 + UInt16.ofNat k := ha.trans heq
      have hnat := Word.add_ofNat_inj a.toNat_lt (Nat.lt_of_lt_of_le hk h) hsame
      exact hlt (hnat ▸ hk)
    rw [read_writeAll_of_ne _ _ _ _ hapart, read_zero,
      List.getD_eq_default _ _ (Nat.le_of_not_lt hlt)]

end Memory

/-- Puts a program into a machine in use, field by field. -/
def Machine.reload (p : Program) (options : MachineOptions) : EStateM Fault Machine Unit := do
  if memorySize < p.code.length then
    throw (.programTooLarge p.code.length)
  modify fun m => { m with memory := .zero }
  modify fun m => { m with memory := m.memory.writeAll 0 p.code }
  modify fun m => { m with gr := .replicate 8 0 }
  modify fun m => { m with sp := 0 }
  modify fun m => { m with pr := p.entry }
  modify fun m => { m with flags := {} }
  modify fun m => { m with options }
  modify fun m => { m with halted := false }

theorem Machine.run_reload (p : Program) (options : MachineOptions) (m : Machine) :
    (reload p options).run m = match load p options with
      | .ok m' => .ok () m'
      | .error f => .error f m := by
  unfold load
  by_cases h : memorySize < p.code.length
  · rw [if_pos h, reload, if_pos h]
    rfl
  · rw [if_neg h, reload, if_neg h, ← Memory.writeAll_zero (Nat.le_of_not_lt h)]
    rfl

/-- Forgets all frames, and begins with that of the subroutine in which execution starts. -/
def CallStack.reset (s : CallStack) (entry : String) : CallStack :=
  let s := { s with frames := [] }
  { s with frames := ⟨entry, none⟩ :: s.frames }

namespace LineStepper

/-- What is done to the machine of a stepper. -/
def onMachine (x : EStateM Fault Machine Unit) : EStateM StepError LineStepper Unit := fun s =>
  match x.run s.machine with
  | .ok () machine => .ok () { s with machine }
  | .error f machine => .error (.fault f) { s with machine }

/-- Launches a program in a stepper in use, field by field. -/
def relaunch (compiled : Assembled) (options : MachineOptions) :
    EStateM StepError LineStepper (List Diagnostic) := do
  if !compiled.diagnostics.isEmpty then
    return compiled.diagnostics
  match compiled.program with
  | none => throw .noProgram
  | some program =>
    match program.debug.entrySubroutine with
    | none => throw .noEntrySubroutine
    | some entry =>
      onMachine (Machine.reload program options)
      modify fun s => { s with stack := s.stack.reset entry.name }
      modify fun s => { s with input := none }
      modify fun s => { s with output := #[] }
      modify fun s => { s with program := some program }
      return compiled.diagnostics

theorem run_onMachine_reload (s : LineStepper) (p : Program) (options : MachineOptions) :
    (onMachine (Machine.reload p options)).run s = match Machine.load p options with
      | .ok machine => .ok () { s with machine }
      | .error f => .error (.fault f) s := by
  show onMachine (Machine.reload p options) s = _
  rw [onMachine, Machine.run_reload]
  cases Machine.load p options <;> rfl

/-- The launch field by field is the launch. -/
theorem run_relaunch (s : LineStepper) (compiled : Assembled) (options : MachineOptions) :
    (relaunch compiled options).run s = match s.launch compiled options with
      | (.ok ds, t) => .ok ds t
      | (.error e, t) => .error e t := by
  unfold launch relaunch
  cases hdiagnostics : compiled.diagnostics with
  | cons d ds => rfl
  | nil =>
    cases hprogram : compiled.program with
    | none => rfl
    | some p =>
      cases hentry : p.debug.entrySubroutine with
      | none =>
        simp only [hentry]
        rfl
      | some entry =>
        have hmachine := s.run_onMachine_reload p options
        cases hload : Machine.load p options with
        | error f => simp [hentry, hload, EStateM.run_bind, hmachine]
        | ok m =>
          simp [hentry, hload, EStateM.run_bind, hmachine]
          rfl

/-- What can be asked of a stepper. -/
inductive Call
  | launch (compiled : Assembled) (options : MachineOptions)
  | isEntryLine (line : Nat)
  | peek (line : Nat)
  | stepLine (line : Nat)
  | setInput (text : String)
  | takeOutput
  | stackFrames
  | stackFrameCount
  | state

/-- What a stepper says to it. -/
inductive Answer
  | launched (outcome : Except StepError (List Diagnostic))
  | entryLine (holds : Bool)
  | peeked (outcome : Except StepError (Option InstructionKind))
  | stepped (outcome : Except StepError LineStep)
  | inputSet
  | output (lines : List String)
  | frames (outermostFirst : List Frame)
  | frameCount (count : Nat)
  | state (gr : Vector Word 8) (sp pr : Word) (flags : Flags)

def call (s : LineStepper) : Call → Answer × LineStepper
  | .launch compiled options =>
    (.launched (s.launch compiled options).1, (s.launch compiled options).2)
  | .isEntryLine line => (.entryLine (s.isEntryLine line), s)
  | .peek line => (.peeked (s.peek line), s)
  | .stepLine line => (.stepped (s.stepLine line).1, (s.stepLine line).2)
  | .setInput text => (.inputSet, s.setInput text)
  | .takeOutput => (.output s.takeOutput.1, s.takeOutput.2)
  | .stackFrames => (.frames s.stack.outermostFirst, s)
  | .stackFrameCount => (.frameCount s.stack.depth, s)
  | .state => (.state s.machine.gr s.machine.sp s.machine.pr s.machine.flags, s)

/-- The answers to one call after the other. -/
def answers (s : LineStepper) : List Call → List Answer
  | [] => []
  | c :: calls => (s.call c).1 :: (s.call c).2.answers calls

/-- Why no program is loaded, and what is said then. -/
inductive Refuses (compiled : Assembled) : Except StepError (List Diagnostic) → Prop
  | diagnosed (h : compiled.diagnostics ≠ []) : Refuses compiled (.ok compiled.diagnostics)
  | noProgram (hclean : compiled.diagnostics = []) (h : compiled.program = none) :
      Refuses compiled (.error .noProgram)
  | noEntrySubroutine (hclean : compiled.diagnostics = []) (p : Program)
      (hp : compiled.program = some p) (h : p.debug.entrySubroutine = none) :
      Refuses compiled (.error .noEntrySubroutine)
  | tooLarge (hclean : compiled.diagnostics = []) (p : Program) (hp : compiled.program = some p)
      (entry : Subroutine) (hentry : p.debug.entrySubroutine = some entry)
      (h : memorySize < p.code.length) :
      Refuses compiled (.error (.fault (.programTooLarge p.code.length)))

/-- Nothing of what the stepper has been used for plays a part in whether it loads the program, nor
in what it is afterwards. -/
theorem launch_loads_or_refuses (compiled : Assembled) (options : MachineOptions) :
    ((∀ answer, ¬ Refuses compiled answer) ∧
      ∃ t, ∀ s : LineStepper, s.launch compiled options = (.ok [], t)) ∨
    (∃ answer, Refuses compiled answer ∧
      ∀ s : LineStepper, s.launch compiled options = (answer, s)) := by
  unfold launch
  cases hdiagnostics : compiled.diagnostics with
  | cons d ds =>
    have hne : compiled.diagnostics ≠ [] := by simp [hdiagnostics]
    exact Or.inr ⟨_, .diagnosed hne, fun s => by simp [hdiagnostics]⟩
  | nil =>
    cases hprogram : compiled.program with
    | none => exact Or.inr ⟨_, .noProgram hdiagnostics hprogram, fun s => rfl⟩
    | some p =>
      cases hentry : p.debug.entrySubroutine with
      | none =>
        exact Or.inr ⟨_, .noEntrySubroutine hdiagnostics p hprogram hentry,
          fun s => by simp [hentry]⟩
      | some entry =>
        by_cases hsize : memorySize < p.code.length
        · exact Or.inr ⟨_, .tooLarge hdiagnostics p hprogram entry hentry hsize,
            fun s => by simp [hentry, Machine.load, hsize]⟩
        · refine Or.inl ⟨?_, _, fun s => by simp only [hentry, Machine.load, if_neg hsize]; rfl⟩
          rintro answer hrefuses
          cases hrefuses with
          | diagnosed h => exact h hdiagnostics
          | noProgram _ h => simp [hprogram] at h
          | noEntrySubroutine _ q hq h =>
            obtain rfl : p = q := Option.some.inj (hprogram.symm.trans hq)
            simp [hentry] at h
          | tooLarge _ q hq _ _ h =>
            obtain rfl : p = q := Option.some.inj (hprogram.symm.trans hq)
            exact hsize h

/-- Either the program is loaded, and then the stepper is what a new one would be, so that nothing
asked of it from here on tells them apart; or there is a reason not to load it, and then the stepper
is what it was. -/
theorem launch_loads_afresh_or_changes_nothing (s : LineStepper) (compiled : Assembled)
    (options : MachineOptions) :
    (relaunch compiled options).run s = (match s.launch compiled options with
      | (.ok ds, t) => .ok ds t
      | (.error e, t) => .error e t) ∧
    (((∀ answer, ¬ Refuses compiled answer) ∧
      ∃ t, s.launch compiled options = (.ok [], t) ∧
        ({} : LineStepper).launch compiled options = (.ok [], t) ∧
        ∀ calls, s.answers (.launch compiled options :: calls) =
          ({} : LineStepper).answers (.launch compiled options :: calls)) ∨
    (∃ answer, Refuses compiled answer ∧ s.launch compiled options = (answer, s) ∧
      ∀ calls, s.answers (.launch compiled options :: calls) =
        .launched answer :: s.answers calls)) := by
  refine ⟨s.run_relaunch compiled options, ?_⟩
  rcases launch_loads_or_refuses compiled options with ⟨hnone, t, ht⟩ | ⟨answer, hrefuses, hs⟩
  · refine Or.inl ⟨hnone, t, ht s, ht {}, fun calls => ?_⟩
    rw [answers, answers, call, call, ht s, ht {}]
  · refine Or.inr ⟨answer, hrefuses, hs s, fun calls => ?_⟩
    rw [answers, call, hs s]

end LineStepper

end Comet
