import Comet.Proofs.Machine.PlainSteps

namespace Comet

def Mnemonic.usesStack : Mnemonic → Bool
  | push | pop | call | ret => true
  | _ => false

/-- The register into which the instruction puts its result. -/
def Instruction.destination? (i : Instruction) : Option RegisterField :=
  match i.mnemonic with
  | .ld | .lad | .arithmetic _ | .logic _ | .shift _ | .pop => some i.r
  | _ => none

theorem Memory.read_writeAll_of_ne (m : Memory) (address a : Word) (ws : List Word)
    (h : ∀ k < ws.length, a ≠ address + .ofNat k) :
    (m.writeAll address ws).read a = m.read a := by
  induction ws generalizing m address with
  | nil => rfl
  | cons w ws ih =>
    have hfirst : a ≠ address := by
      have h0 := h 0 (Nat.succ_pos _)
      simpa using h0
    have hrest : ∀ k < ws.length, a ≠ address + 1 + .ofNat k := by
      intro k hk
      have hnext : address + UInt16.ofNat (k + 1) = address + 1 + .ofNat k := by
        grind [UInt16.ofNat_add]
      rw [← hnext]
      exact h (k + 1) (Nat.succ_lt_succ hk)
    rw [writeAll, ih _ _ hrest, read_write, if_neg hfirst]

namespace Machine

/-- Where a line of input is stored: its length, and its characters. -/
def inputAddresses (m : Machine) (line : Option String) : List Word :=
  let count := ((line.getD "").toList.take maxInput).length
  m.lengthAddress :: (List.range count).map fun k => m.bufferAddress + .ofNat k

/-- The addresses to which the instruction stores, the top of the stack apart. -/
def storeAddresses (m : Machine) (i : Instruction) (line : Option String) : List Word :=
  match i.mnemonic with
  | .st => (m.effectiveAddress i).toOption.toList
  | .svc => if m.ReadsLine then m.inputAddresses line else []
  | _ => []

/-- What the instruction has done to the stack, where `line` is the answer of the console and
`halted` says whether the program has ended. -/
inductive StackEffect (m : Machine) (i : Instruction) (line : Option String) :
    (halted : Bool) → Machine → Prop
  | pushed {m' : Machine} (hi : i.mnemonic = .push) (w : Word) (hsp : m'.sp = m.sp - 1)
      (hmemory : m'.memory = m.memory.write (m.sp - 1) w) : StackEffect m i line false m'
  | called {m' : Machine} (hi : i.mnemonic = .call) (hsp : m'.sp = m.sp - 1)
      (hmemory : m'.memory = m.memory.write (m.sp - 1) (m.pr + i.size)) :
      StackEffect m i line false m'
  | popped {m' : Machine} (hi : i.mnemonic = .pop) (hsp : m'.sp = m.sp + 1)
      (hmemory : m'.memory = m.memory) : StackEffect m i line false m'
  | returned {m' : Machine} (hi : i.mnemonic = .ret) (hsome : m.sp ≠ 0) (hsp : m'.sp = m.sp + 1)
      (hmemory : m'.memory = m.memory) (hpr : m'.pr = m.read m.sp) : StackEffect m i line false m'
  | ended {m' : Machine} (hi : i.mnemonic = .ret) (hempty : m.sp = 0) (hsp : m'.sp = m.sp)
      (hmemory : m'.memory = m.memory) : StackEffect m i line true m'
  | spared {m' : Machine} (hi : i.mnemonic.usesStack = false) (hsp : m'.sp = m.sp)
      (hmemory : ∀ a, a ∉ m.storeAddresses i line → m'.read a = m.read a) :
      StackEffect m i line false m'

section spares

variable {m : Machine} {r : RegisterField}

/-- The stack pointer and the memory are as they were. -/
def SameStack (m m' : Machine) : Prop := m'.sp = m.sp ∧ m'.memory = m.memory

theorem setRegister_sameStack (hr : r ≠ 8) (w : Word) :
    Ensures m.SameStack (m.setRegister r w) := by
  intro m' hm'
  unfold setRegister at hm'
  split at hm'
  · cases hm'
    exact ⟨rfl, rfl⟩
  · rw [if_neg (fun h => hr h.1)] at hm'
    cases hm'

theorem setResult_sameStack (hr : r ≠ 8) (w : Word) (overflow : Bool) :
    Ensures m.SameStack (m.setResult r w overflow) := by
  apply ensures_bind
  intro m' hm'
  obtain ⟨hsp, hmemory⟩ := setRegister_sameStack hr w m' hm'
  exact ensures_pure ⟨hsp, hmemory⟩

end spares

section effect

variable {σ : Type} {io : Console σ} {m : Machine} {i : Instruction} {s : σ} {halted : Bool}

theorem effectiveAddress_moved (pr w : Word) :
    ({ m with pr } : Machine).effectiveAddress i = .ok w ↔ m.effectiveAddress i = .ok w := by
  simp only [effectiveAddress_eq_ok_iff, register_moved]

/-- A line is stored where its addresses say. -/
theorem read_accept_of_notMem {line : Option String} {a : Word} (h : a ∉ m.inputAddresses line) :
    (m.accept line).read a = m.read a := by
  simp only [inputAddresses, List.mem_cons, List.mem_map, List.mem_range, not_or] at h
  obtain ⟨hlength, hbuffer⟩ := h
  cases line with
  | none =>
    show (m.memory.write m.lengthAddress 0xFFFF).read a = m.memory.read a
    rw [Memory.read_write, if_neg hlength]
  | some text =>
    have hapart : ∀ k < ((text.toList.take maxInput).map Word.ofChar).length,
        a ≠ m.bufferAddress + .ofNat k := by
      intro k hk ha
      rw [List.length_map] at hk
      exact hbuffer ⟨k, hk, ha.symm⟩
    show (Memory.write _ _ _).read a = m.memory.read a
    rw [Memory.read_write, if_neg hlength, Memory.read_writeAll_of_ne _ _ _ _ hapart]

/-- What an attempt ensures holds of the machine after the step, if it does not fault. -/
theorem Ensures.stepOn {P : Machine → Prop} {m₁ : Machine} {r : Except Fault Machine}
    (hP : Ensures P r) (hstep : m.step = m₁.attempt r) (h : (m.stepOn io s).result = .ok halted) :
    P (m.stepOn io s).machine := by
  unfold Machine.stepOn at h ⊢
  cases r with
  | error f => simp [hstep, attempt] at h
  | ok m' =>
    simp only [hstep, attempt]
    exact hP m' rfl

/-- An instruction that neither stores nor uses the stack changes registers and flags only. -/
theorem execute_sameStack (huses : i.mnemonic.usesStack = false) (hstores : i.mnemonic ≠ .st)
    (hserves : i.mnemonic ≠ .svc) (hdestination : i.destination? ≠ some 8) (origin : Word) :
    ∃ r, m.execute i origin = m.attempt r ∧ Ensures m.SameStack r := by
  have hregister (hd : i.destination? = some i.r) : i.r ≠ 8 := by
    intro hr
    exact hdestination (hr ▸ hd)
  unfold execute
  cases hmnemonic : i.mnemonic with
  | nop => exact ⟨pure m, rfl, ensures_pure ⟨rfl, rfl⟩⟩
  | ld =>
    have hr := hregister (by simp [Instruction.destination?, hmnemonic])
    exact ⟨_, rfl, ensures_bind fun w _ => setResult_sameStack hr _ _⟩
  | lad =>
    have hr := hregister (by simp [Instruction.destination?, hmnemonic])
    exact ⟨_, rfl, ensures_bind fun w _ => setRegister_sameStack hr _⟩
  | arithmetic op | logic op | shift op =>
    have hr := hregister (by simp [Instruction.destination?, hmnemonic])
    exact ⟨_, rfl, ensures_bind fun a _ => ensures_bind fun w _ => setResult_sameStack hr _ _⟩
  | compare op =>
    exact ⟨_, rfl, ensures_bind fun a _ => ensures_bind fun w _ => ensures_pure ⟨rfl, rfl⟩⟩
  | jump op =>
    by_cases htaken : op.taken m.flags.overflow m.flags.sign m.flags.zero = true
    · simp only [htaken, if_true]
      exact ⟨_, rfl, ensures_bind fun a _ => ensures_pure ⟨rfl, rfl⟩⟩
    · simp only [htaken]
      exact ⟨pure m, rfl, ensures_pure ⟨rfl, rfl⟩⟩
  | st => exact absurd hmnemonic hstores
  | svc => exact absurd hmnemonic hserves
  | push | pop | call | ret =>
    rw [hmnemonic] at huses
    cases huses

section step

variable (hm : m.halted = false) (hi : m.instructionAt m.pr = .ok i)
include hm hi

theorem stackEffect_of_sameStack (huses : i.mnemonic.usesStack = false)
    (hstores : i.mnemonic ≠ .st) (hserves : i.mnemonic ≠ .svc)
    (hdestination : i.destination? ≠ some 8) (h : (m.stepOn io s).result = .ok false) :
    m.StackEffect i (io.readLine s).1 false (m.stepOn io s).machine := by
  obtain ⟨r, hexecute, hsame⟩ := execute_sameStack (m := { m with pr := m.pr + i.size }) huses
    hstores hserves hdestination m.pr
  have hattempt := (step_of_instructionAt hm hi).trans hexecute
  obtain ⟨hsp, hmemory⟩ := hsame.stepOn hattempt h
  refine .spared huses hsp ?_
  intro a _
  rw [read, hmemory]
  rfl

theorem stackEffect_of_st (hst : i.mnemonic = .st) (h : (m.stepOn io s).result = .ok false) :
    m.StackEffect i (io.readLine s).1 false (m.stepOn io s).machine := by
  have hstep := step_of_instructionAt hm hi
  simp only [execute, hst] at hstep
  obtain ⟨address, w, haddress, hmachine⟩ := Ensures.stepOn
    (P := fun m' => ∃ address w, m.effectiveAddress i = .ok address ∧
      m' = ({ m with pr := m.pr + i.size } : Machine).write address w)
    (ensures_bind fun address haddress => ensures_bind fun w _ =>
      ensures_pure ⟨address, w, (effectiveAddress_moved _ _).mp haddress, rfl⟩) hstep h
  rw [hmachine]
  refine .spared (by rw [hst]; rfl) rfl ?_
  intro a ha
  simp only [storeAddresses, hst, haddress, Except.toOption, Option.toList_some,
    List.mem_singleton] at ha
  show (m.memory.write address w).read a = m.memory.read a
  rw [Memory.read_write, if_neg ha]

theorem stackEffect_of_push (hpush : i.mnemonic = .push)
    (h : (m.stepOn io s).result = .ok false) :
    m.StackEffect i (io.readLine s).1 false (m.stepOn io s).machine := by
  have hstep := step_of_instructionAt hm hi
  simp only [execute, hpush] at hstep
  obtain ⟨w, hmachine⟩ := Ensures.stepOn
    (P := fun m' => ∃ w, m' = ({ m with pr := m.pr + i.size } : Machine).push w)
    (ensures_bind fun w _ => ensures_pure ⟨w, rfl⟩) hstep h
  rw [hmachine]
  exact .pushed hpush w rfl rfl

theorem stackEffect_of_pop (hpop : i.mnemonic = .pop) (hr : i.r ≠ 8)
    (h : (m.stepOn io s).result = .ok false) :
    m.StackEffect i (io.readLine s).1 false (m.stepOn io s).machine := by
  have hstep := step_of_instructionAt hm hi
  simp only [execute, hpop, pop] at hstep
  obtain ⟨hsp, hmemory⟩ := (setRegister_sameStack hr _).stepOn hstep h
  exact .popped hpop hsp hmemory

theorem stackEffect_of_call (hcall : i.mnemonic = .call)
    (h : (m.stepOn io s).result = .ok false) :
    m.StackEffect i (io.readLine s).1 false (m.stepOn io s).machine := by
  have hstep := step_of_instructionAt hm hi
  simp only [execute, hcall] at hstep
  obtain ⟨target, hmachine⟩ := Ensures.stepOn
    (P := fun m' => ∃ target, m' = { ({ m with pr := m.pr + i.size } : Machine).push
      (m.pr + i.size) with pr := target })
    (ensures_bind fun target _ => ensures_pure ⟨target, rfl⟩) hstep h
  rw [hmachine]
  exact .called hcall rfl rfl

theorem stackEffect_of_ret (hret : i.mnemonic = .ret)
    (h : (m.stepOn io s).result = .ok halted) :
    m.StackEffect i (io.readLine s).1 halted (m.stepOn io s).machine := by
  have hstep := step_of_instructionAt hm hi
  by_cases hempty : m.sp = 0
  · simp only [execute, hret, hempty, if_true] at hstep
    simp only [stepOn, hstep, Except.ok.injEq] at h ⊢
    exact h ▸ .ended hret hempty hempty.symm rfl
  · simp only [execute, hret, hempty, if_false, pop] at hstep
    simp only [stepOn, hstep, hm, Except.ok.injEq] at h ⊢
    exact h ▸ .returned hret hempty rfl rfl rfl

/-- A line of input is stored by the second half of the step, at the addresses of the first. -/
theorem stackEffect_of_svc (hsvc : i.mnemonic = .svc) (h : (m.stepOn io s).result = .ok false) :
    m.StackEffect i (io.readLine s).1 false (m.stepOn io s).machine := by
  have hstep := step_of_instructionAt hm hi
  have huses : i.mnemonic.usesStack = false := by rw [hsvc]; rfl
  simp only [execute, hsvc] at hstep
  cases hcode : ({ m with pr := m.pr + i.size } : Machine).effectiveAddress i with
  | error f => simp [stepOn, hstep, hcode] at h
  | ok code =>
    simp only [hcode] at hstep
    by_cases hinput : code = svcInput
    · rw [if_pos hinput] at hstep
      have hreads : m.ReadsLine := by rw [ReadsLine, hstep]; rfl
      simp only [stepOn, hstep]
      refine .spared huses (by cases (io.readLine s).1 <;> rfl) ?_
      intro a ha
      simp only [storeAddresses, hsvc, hreads, if_true] at ha
      exact read_accept_of_notMem (m := { m with pr := m.pr + i.size }) ha
    · rw [if_neg hinput] at hstep
      by_cases houtput : code = svcOutput
      · rw [if_pos houtput] at hstep
        simp only [stepOn, hstep]
        exact .spared huses rfl fun a _ => rfl
      · rw [if_neg houtput] at hstep
        simp [stepOn, hstep] at h

/-- Every instruction that does not put its result into register 8 does one of six things to the
stack. -/
theorem stepOn_stackEffect (hdestination : i.destination? ≠ some 8)
    (h : (m.stepOn io s).result = .ok halted) :
    m.StackEffect i (io.readLine s).1 halted (m.stepOn io s).machine := by
  by_cases hret : i.mnemonic = .ret
  · exact stackEffect_of_ret hm hi hret h
  obtain rfl : halted = false := stepOn_goes_on hm hi hret h
  cases hmnemonic : i.mnemonic with
  | ret => exact absurd hmnemonic hret
  | st => exact stackEffect_of_st hm hi hmnemonic h
  | push => exact stackEffect_of_push hm hi hmnemonic h
  | pop =>
    have hr : i.r ≠ 8 := by simpa [Instruction.destination?, hmnemonic] using hdestination
    exact stackEffect_of_pop hm hi hmnemonic hr h
  | call => exact stackEffect_of_call hm hi hmnemonic h
  | svc => exact stackEffect_of_svc hm hi hmnemonic h
  | nop | ld | lad | arithmetic | logic | compare | shift | jump =>
    exact stackEffect_of_sameStack hm hi (by rw [hmnemonic]; rfl) (by simp [hmnemonic])
      (by simp [hmnemonic]) hdestination h

end step

end effect

end Machine

end Comet
