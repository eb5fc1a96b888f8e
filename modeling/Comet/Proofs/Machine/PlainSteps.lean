import Comet.PlainRun
import Comet.Proofs.Machine.Announcement

namespace Comet

def Step.machine : Step → Machine
  | done m | reads m | writes _ m | fault _ m => m

namespace Machine

variable {σ : Type} {io : Console σ}

/-- The machine and its console after some steps, if the run goes on after each of them. -/
def stepsOn (io : Console σ) (m : Machine) (s : σ) : Nat → Option (Machine × σ)
  | 0 => some (m, s)
  | n + 1 => (stepsOn io m s n).bind fun (m, s) =>
    let c := m.stepOn io s
    match c.result with
    | .ok false => some (c.machine, c.console)
    | _ => none

section stepsOn

variable {m m' : Machine} {s s' : σ} {n : Nat}

theorem stepsOn_succ_eq_some (h : m.stepsOn io s n = some (m', s'))
    (hresult : (m'.stepOn io s').result = .ok false) :
    m.stepsOn io s (n + 1) = some ((m'.stepOn io s').machine, (m'.stepOn io s').console) := by
  simp [stepsOn, h, hresult]

theorem stepsOn_eq_none {k : Nat} (h : m.stepsOn io s n = none) (hk : n ≤ k) :
    m.stepsOn io s k = none := by
  induction hk with
  | refl => exact h
  | step _ ih => rw [stepsOn, ih]; rfl

/-- A plain run takes these steps before all others. -/
theorem runToEnd_of_stepsOn (h : m.stepsOn io s n = some (m', s')) (steps fuel : Nat) :
    m.runToEnd io s steps (n + fuel) = m'.runToEnd io s' (steps + n) fuel := by
  -- Steps are counted from the start and the loop goes from the end, so the bound is generalized.
  induction n generalizing m' s' fuel with
  | zero =>
    simp only [stepsOn, Option.some.injEq, Prod.mk.injEq] at h
    obtain ⟨rfl, rfl⟩ := h
    simp
  | succ n ih =>
    obtain ⟨⟨m₁, s₁⟩, hn, hstep⟩ := Option.bind_eq_some_iff.mp h
    cases hresult : (m₁.stepOn io s₁).result with
    | error f => simp [hresult] at hstep
    | ok ended =>
      cases ended with
      | true => simp [hresult] at hstep
      | false =>
        simp only [hresult, Option.some.injEq, Prod.mk.injEq] at hstep
        obtain ⟨rfl, rfl⟩ := hstep
        have hfuel : n + 1 + fuel = n + (fuel + 1) := by omega
        rw [hfuel, ih hn, runToEnd, hresult]
        simp only [Nat.add_assoc]

theorem runToEnd_of_ended (h : m.stepsOn io s n = some (m', s'))
    (hresult : (m'.stepOn io s').result = .ok true) :
    m.runToEnd io s 0 (n + 1) =
      some (.ok (n + 1), (m'.stepOn io s').machine, (m'.stepOn io s').console) := by
  rw [runToEnd_of_stepsOn h, runToEnd, hresult]
  simp

theorem runToEnd_of_fault (h : m.stepsOn io s n = some (m', s')) {f : Fault}
    (hresult : (m'.stepOn io s').result = .error f) :
    m.runToEnd io s 0 (n + 1) =
      some (.error f, (m'.stepOn io s').machine, (m'.stepOn io s').console) := by
  rw [runToEnd_of_stepsOn h, runToEnd, hresult]

end stepsOn

section lineQueue

variable (io : Console σ) (m : Machine) (s : σ)

/-- The line that a step reads from its console, if it reads one, and the console behind it. -/
def lineFor : Option String × σ := if m.ReadsLine then io.readLine s else (none, s)

/-- On any console a step is one on a queue with no more than the line that it reads, and what it
writes goes to the console afterwards. -/
theorem stepOn_eq_lineQueue : m.stepOn io s =
    let c := m.stepOn LineQueue.console { input := (m.lineFor io s).1.toList }
    ⟨c.result, c.machine, c.console.output.foldl io.writeLine (m.lineFor io s).2⟩ := by
  cases hstep : m.step with
  | done m' | fault f m' | writes text m' =>
    simp [stepOn, lineFor, ReadsLine, hstep, LineQueue.console]
  | reads m' =>
    obtain ⟨⟨line, s'⟩, hline⟩ : ∃ read, io.readLine s = read := ⟨_, rfl⟩
    cases line <;> simp [stepOn, lineFor, ReadsLine, hstep, hline, LineQueue.console]

/-- A run goes on step by step with the lines that its steps read. -/
theorem runToEnd_eq_lineQueue (steps fuel : Nat) : m.runToEnd io s steps (fuel + 1) =
    let c := m.stepOn LineQueue.console { input := (m.lineFor io s).1.toList }
    let s' := c.console.output.foldl io.writeLine (m.lineFor io s).2
    match c.result with
    | .error f => some (.error f, c.machine, s')
    | .ok true => some (.ok (steps + 1), c.machine, s')
    | .ok false => c.machine.runToEnd io s' (steps + 1) fuel := by
  rewrite [runToEnd, stepOn_eq_lineQueue]
  rfl

end lineQueue

section ensures

/-- A machine that comes out of it has the property. -/
def Ensures (P : Machine → Prop) (r : Except Fault Machine) : Prop := ∀ m, r = .ok m → P m

variable {P : Machine → Prop}

theorem ensures_pure {m : Machine} (h : P m) : Ensures P (pure m) := by
  rintro m' ⟨⟩
  exact h

theorem ensures_bind {α : Type} {x : Except Fault α} {f : α → Except Fault Machine}
    (h : ∀ a, x = .ok a → Ensures P (f a)) : Ensures P (x >>= f) := by
  intro m' hm'
  cases hx : x with
  | error e =>
    rw [hx] at hm'
    cases hm'
  | ok a =>
    rw [hx] at hm'
    exact h a hx m' hm'

end ensures

section halted

variable (m : Machine)

/-- Whatever the instruction does to the machine, it does not end the program. -/
def GoesOn (r : Except Fault Machine) : Prop := ∀ m', r = .ok m' → m'.halted = m.halted

variable {m}

theorem goesOn_pure {m' : Machine} (h : m'.halted = m.halted) : m.GoesOn (pure m') :=
  ensures_pure h

theorem goesOn_bind {α : Type} {x : Except Fault α} {f : α → Except Fault Machine}
    (h : ∀ a, x = .ok a → m.GoesOn (f a)) : m.GoesOn (x >>= f) :=
  ensures_bind h

theorem goesOn_setRegister (r : RegisterField) (w : Word) : m.GoesOn (m.setRegister r w) := by
  intro m' hm'
  unfold setRegister at hm'
  split at hm'
  · cases hm'
    rfl
  · split at hm'
    · cases hm'
      rfl
    · cases hm'

theorem goesOn_setResult (r : RegisterField) (w : Word) (overflow : Bool) :
    m.GoesOn (m.setResult r w overflow) :=
  goesOn_bind fun m' hm' => goesOn_pure (goesOn_setRegister r w m' hm')

theorem GoesOn.attempt {r : Except Fault Machine} (h : m.GoesOn r) :
    (m.attempt r).machine.halted = m.halted := by
  cases r with
  | error f => rfl
  | ok m' => exact h m' rfl

/-- Only a return ends the program. -/
theorem execute_halted (i : Instruction) (origin : Word) (hi : i.mnemonic ≠ .ret) :
    (m.execute i origin).machine.halted = m.halted := by
  unfold execute
  cases hmnemonic : i.mnemonic with
  | nop => rfl
  | ld => exact (goesOn_bind fun w _ => goesOn_setResult _ _ _).attempt
  | st => exact (goesOn_bind fun a _ => goesOn_bind fun w _ => goesOn_pure (by rfl)).attempt
  | lad => exact (goesOn_bind fun a _ => goesOn_setRegister _ _).attempt
  | arithmetic op | logic op | shift op =>
    exact (goesOn_bind fun a _ => goesOn_bind fun w _ => goesOn_setResult _ _ _).attempt
  | compare op => exact (goesOn_bind fun a _ => goesOn_bind fun w _ => goesOn_pure (by rfl)).attempt
  | jump op =>
    simp only
    split
    · exact (goesOn_bind fun a _ => goesOn_pure (by rfl)).attempt
    · rfl
  | push => exact (goesOn_bind fun a _ => goesOn_pure (by rfl)).attempt
  | pop => exact (goesOn_setRegister _ _).attempt
  | call => exact (goesOn_bind fun a _ => goesOn_pure (by rfl)).attempt
  | ret => exact absurd hmnemonic hi
  | svc =>
    simp only
    cases m.effectiveAddress i with
    | error f => rfl
    | ok code =>
      simp only
      split
      · rfl
      · split <;> rfl

theorem accept_halted (line : Option String) : (m.accept line).halted = m.halted := by
  cases line <;> rfl

/-- A step says that the program has ended if and only if its machine has halted. -/
theorem stepOn_halted {s : σ} {b : Bool} (h : (m.stepOn io s).result = .ok b) :
    (m.stepOn io s).machine.halted = b := by
  unfold stepOn at h ⊢
  cases hstep : m.step with
  | done m' | writes text m' =>
    simp only [hstep, Except.ok.injEq] at h
    exact h
  | reads m' =>
    simp only [hstep, Except.ok.injEq] at h
    rw [← h]
    exact accept_halted _
  | fault f m' =>
    rw [hstep] at h
    cases h

theorem stepOn_goes_on {s : σ} {b : Bool} (hm : m.halted = false) {i : Instruction}
    (hi : m.instructionAt m.pr = .ok i) (hret : i.mnemonic ≠ .ret)
    (h : (m.stepOn io s).result = .ok b) : b = false := by
  have hhalted : m.step.machine.halted = false := by
    rw [step_of_instructionAt hm hi, execute_halted i _ hret]
    exact hm
  rw [← stepOn_halted h, ← hhalted]
  unfold stepOn
  cases m.step with
  | done m' | writes text m' | fault f m' => rfl
  | reads m' => exact accept_halted _

/-- Only what is announced as a return ends the program. -/
theorem stepOn_goes_on_of_kind {s : σ} {b : Bool} (hm : m.halted = false) {kind : InstructionKind}
    (hkind : m.nextKind = .ok kind) (hret : kind ≠ .ret)
    (h : (m.stepOn io s).result = .ok b) : b = false := by
  unfold nextKind at hkind
  cases hi : m.instructionAt m.pr with
  | error f =>
    rw [hi] at hkind
    cases hkind
  | ok i =>
    rw [hi] at hkind
    refine stepOn_goes_on hm hi (fun hmnemonic => hret ?_) h
    cases hkind
    simp [Instruction.kind, hmnemonic]

/-- Where there is no instruction, the step faults and leaves the machine as it is. -/
theorem step_of_undecoded {f : Fault} (hm : m.halted = false) (h : m.nextKind = .error f) :
    m.step = .fault f m := by
  unfold nextKind at h
  cases hi : m.instructionAt m.pr with
  | error f' =>
    rw [hi] at h
    cases h
    exact step_of_no_instruction hm hi
  | ok i =>
    rw [hi] at h
    cases h

end halted

end Machine

/-- What has happened at a console: how many lines have been taken from it, and what has been
written. -/
structure Supply where
  taken : Nat := 0
  written : Array String := #[]

/-- A console that never runs out of lines. -/
def Supply.console (inputs : Nat → String) : Console Supply where
  readLine s := (some (inputs s.taken), { s with taken := s.taken + 1 })
  writeLine s text := { s with written := s.written.push text }

end Comet
