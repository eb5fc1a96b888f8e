import Comet.Proofs.Machine.StackEffect

namespace Comet

/-- Where an instruction has no address, it does not matter which word follows it. -/
theorem Instruction.decode_congr {word next next' : Word} {i : Instruction}
    (h : decode word next = some i) (hsame : i.adr.isSome = true → next' = next) :
    decode word next' = some i := by
  unfold decode at h ⊢
  cases hm : Mnemonic.ofOpcode? (opcodeField word) with
  | none =>
    rw [hm] at h
    exact h
  | some m =>
    rw [hm] at h
    obtain rfl := Option.some.inj h
    cases haddress : m.form.hasAddress with
    | false => simp [haddress]
    | true => simp [haddress, hsame (by simp [haddress])]

/-- The number of words of the instructions. -/
def codeLength : List Instruction → Nat
  | [] => 0
  | i :: is => i.size.toNat + codeLength is

/-- Words that are less than the whole memory apart are different. -/
theorem Word.add_ofNat_inj {a : Word} {i j : Nat} (hi : i < memorySize) (hj : j < memorySize)
    (h : a + .ofNat i = a + .ofNat j) : i = j := by
  have hsame : UInt16.ofNat i = .ofNat j := by
    calc UInt16.ofNat i = a + .ofNat i - a := by rw [UInt16.add_comm, UInt16.add_sub_cancel]
      _ = a + .ofNat j - a := by rw [h]
      _ = .ofNat j := by rw [UInt16.add_comm, UInt16.add_sub_cancel]
  have hnat := congrArg UInt16.toNat hsame
  rwa [UInt16.toNat_ofNat_of_lt' hi, UInt16.toNat_ofNat_of_lt' hj] at hnat

namespace Memory

/-- The instructions stand in memory, one behind the other, from the address on. -/
def HasCode (memory : Memory) (address : Word) : List Instruction → Prop
  | [] => True
  | i :: is =>
    Instruction.decode (memory.read address) (memory.read (address + 1)) = some i ∧
      memory.HasCode (address + i.size) is

theorem add_size_add (address : Word) (i : Instruction) (k : Nat) :
    address + i.size + .ofNat k = address + .ofNat (i.size.toNat + k) := by
  rw [UInt16.ofNat_add, UInt16.ofNat_toNat, UInt16.add_assoc]

theorem HasCode.congr {memory memory' : Memory} {address : Word} {is : List Instruction}
    (h : memory.HasCode address is)
    (hsame : ∀ k < codeLength is,
      memory'.read (address + .ofNat k) = memory.read (address + .ofNat k)) :
    memory'.HasCode address is := by
  induction is generalizing address with
  | nil => trivial
  | cons i is ih =>
    obtain ⟨hi, hrest⟩ := h
    rw [codeLength] at hsame
    have hpositive : 0 < i.size.toNat := by
      unfold Instruction.size
      split <;> decide
    have hfirst : memory'.read address = memory.read address := by
      have h0 := hsame 0 (by omega)
      simpa using h0
    refine ⟨?_, ih hrest ?_⟩
    · rw [hfirst]
      refine Instruction.decode_congr hi ?_
      intro haddress
      have hsize : i.size.toNat = 2 := by simp [Instruction.size, haddress]
      exact hsame 1 (by omega)
    · intro k hk
      rw [add_size_add]
      exact hsame _ (by omega)

theorem read_writeAll_of_lt (memory : Memory) (address : Word) {ws : List Word} {k : Nat}
    (hk : k < ws.length) (hroom : ws.length ≤ memorySize) :
    (memory.writeAll address ws).read (address + .ofNat k) = ws[k] := by
  induction ws generalizing memory address k with
  | nil => cases hk
  | cons w ws ih =>
    rw [List.length_cons] at hk hroom
    cases k with
    | zero =>
      have hbehind : ∀ j < ws.length, address + .ofNat 0 ≠ address + 1 + .ofNat j := by
        intro j hj heq
        have hnext : address + 1 + .ofNat j = address + .ofNat (1 + j) := by
          grind [UInt16.ofNat_add]
        rw [hnext] at heq
        have hzero := Word.add_ofNat_inj (by decide) (by omega) heq
        omega
      rw [writeAll, read_writeAll_of_ne _ _ _ _ hbehind, read_write]
      simp
    | succ k =>
      have hnext : address + UInt16.ofNat (k + 1) = address + 1 + .ofNat k := by
        grind [UInt16.ofNat_add]
      rw [writeAll, hnext, ih _ _ (by omega) (by omega)]
      rfl

end Memory

namespace Machine

variable {σ : Type}

/-- Executes the instructions one after the other, wherever they stand. Each of them succeeds, goes
on behind itself and leaves the words of the code as they are. -/
inductive Straight (io : Console σ) (code : Word → Prop) :
    Machine → σ → List Instruction → Machine → σ → Prop
  | nil (m : Machine) (s : σ) : Straight io code m s [] m s
  | cons {m m₁ m' : Machine} {s s₁ s' : σ} {i : Instruction} {is : List Instruction}
      (hstep : m.instructionAt m.pr = .ok i → m.stepOn io s = ⟨.ok false, m₁, s₁⟩)
      (hpr : m₁.pr = m.pr + i.size) (hcode : ∀ a, code a → m₁.read a = m.read a)
      (h : Straight io code m₁ s₁ is m' s') : Straight io code m s (i :: is) m' s'

section straight

variable {io : Console σ} {code : Word → Prop} {m m₁ m' : Machine} {s s₁ s' : σ}
  {i : Instruction} {is js : List Instruction}

theorem stepsOn_cons (h : m.stepOn io s = ⟨.ok false, m₁, s₁⟩) (n : Nat) :
    m.stepsOn io s (n + 1) = m₁.stepsOn io s₁ n := by
  induction n with
  | zero => simp [stepsOn, h]
  | succ n ih => rw [stepsOn, ih, stepsOn]

theorem Straight.append (h : Straight io code m s is m₁ s₁)
    (h' : Straight io code m₁ s₁ js m' s') : Straight io code m s (is ++ js) m' s' := by
  induction h with
  | nil => exact h'
  | cons hstep hpr hcode _ ih => exact .cons hstep hpr hcode (ih h')

/-- The machine executes what stands in its memory. -/
theorem Straight.stepsOn (h : Straight io code m s is m' s') (hstands : m.memory.HasCode m.pr is)
    (hcode : ∀ k < codeLength is, code (m.pr + .ofNat k)) :
    m.stepsOn io s is.length = some (m', s') := by
  induction h with
  | nil => rfl
  | @cons m m₁ m' s s₁ s' i is hstep hpr hkept _ ih =>
    obtain ⟨hi, hrest⟩ := hstands
    have hfound : m.instructionAt m.pr = .ok i := by
      unfold instructionAt read
      rw [hi]
    rw [codeLength] at hcode
    have hbehind : ∀ k < codeLength is, code (m.pr + i.size + .ofNat k) := by
      intro k hk
      rw [Memory.add_size_add]
      exact hcode _ (by omega)
    rw [List.length_cons, stepsOn_cons (hstep hfound)]
    rw [← hpr] at hrest hbehind
    exact ih (hrest.congr fun k hk => hkept _ (hbehind k hk)) hbehind

end straight

section single

variable {io : Console σ} {code : Word → Prop} {m m₁ : Machine} {s s₁ : σ}
  {i : Instruction} {r : RegisterField}

theorem register_of_lt (m : Machine) (hr : r.val < 8) : m.register r = .ok m.gr[r.val] := by
  rw [register, dif_pos hr]

theorem setRegister_of_lt (m : Machine) (hr : r.val < 8) (w : Word) :
    m.setRegister r w = .ok { m with gr := m.gr.set r.val w } := by
  rw [setRegister, dif_pos hr]

theorem stepOn_of_done (hstep : m.step = .done m₁) (hm₁ : m₁.halted = false) :
    m.stepOn io s = ⟨.ok false, m₁, s⟩ := by
  simp only [stepOn, hstep, hm₁]

theorem Straight.one (hstep : m.instructionAt m.pr = .ok i → m.stepOn io s = ⟨.ok false, m₁, s₁⟩)
    (hpr : m₁.pr = m.pr + i.size) (hcode : ∀ a, code a → m₁.read a = m.read a) :
    Straight io code m s [i] m₁ s₁ :=
  .cons hstep hpr hcode (.nil m₁ s₁)

/-- `PUSH 0,r` puts a register on the stack. -/
theorem Straight.push (hm : m.halted = false) (hr : r.val < 8) (hr0 : r ≠ 0)
    (hcode : ¬ code (m.sp - 1)) :
    Straight io code m s [⟨.push, 0, r, some 0⟩] { m.push m.gr[r.val] with pr := m.pr + 2 } s := by
  refine .one ?_ rfl ?_
  · intro hi
    refine stepOn_of_done ?_ hm
    simp only [step_of_instructionAt hm hi, execute, effectiveAddress, if_neg hr0,
      register_of_lt _ hr, Except.map, Instruction.base, Option.getD_some, UInt16.zero_add]
    rfl
  · intro a ha
    show (m.memory.write (m.sp - 1) _).read a = m.memory.read a
    rw [Memory.read_write, if_neg]
    rintro rfl
    exact hcode ha

/-- `LAD r,w` puts a word into a register. -/
theorem Straight.lad (hm : m.halted = false) (hr : r.val < 8) (w : Word) :
    Straight io code m s [⟨.lad, r, 0, some w⟩]
      { m with gr := m.gr.set r.val w, pr := m.pr + 2 } s := by
  refine .one ?_ rfl (fun _ _ => rfl)
  intro hi
  refine stepOn_of_done ?_ hm
  simp only [step_of_instructionAt hm hi, execute, effectiveAddress, if_true]
  exact congrArg (attempt _) (setRegister_of_lt _ hr w)

/-- `POP r` takes a register from the stack. -/
theorem Straight.pop (hm : m.halted = false) (hr : r.val < 8) :
    Straight io code m s [⟨.pop, r, 0, none⟩]
      { m with gr := m.gr.set r.val (m.read m.sp), sp := m.sp + 1, pr := m.pr + 1 } s := by
  refine .one ?_ rfl (fun _ _ => rfl)
  intro hi
  refine stepOn_of_done ?_ hm
  simp only [step_of_instructionAt hm hi, execute, Machine.pop, setRegister_of_lt _ hr]
  rfl

/-- The supervisor reads a line. -/
theorem Straight.input (hm : m.halted = false)
    (hcode : ∀ a ∈ m.inputAddresses (io.readLine s).1, ¬ code a) :
    Straight io code m s [⟨.svc, 0, 0, some svcInput⟩]
      { m.accept (io.readLine s).1 with pr := m.pr + 2 } (io.readLine s).2 := by
  refine .one ?_ rfl ?_
  · intro hi
    have hstep : m.step = .reads { m with pr := m.pr + 2 } := by
      simp only [step_of_instructionAt hm hi, execute, effectiveAddress, if_true]
      rfl
    have haccept : ({ m with pr := m.pr + 2 } : Machine).accept (io.readLine s).1 =
        { m.accept (io.readLine s).1 with pr := m.pr + 2 } := by
      cases (io.readLine s).1 <;> rfl
    simp only [stepOn, hstep, haccept]
    exact congrArg (fun halted => (⟨.ok halted, _, _⟩ : Completed σ)) hm
  · intro a ha
    exact read_accept_of_notMem fun hmem => hcode a hmem ha

/-- The supervisor writes a line. -/
theorem Straight.output (hm : m.halted = false) :
    Straight io code m s [⟨.svc, 0, 0, some svcOutput⟩] { m with pr := m.pr + 2 }
      (io.writeLine s m.outputText) := by
  refine .one ?_ rfl (fun _ _ => rfl)
  intro hi
  have hstep : m.step = .writes m.outputText { m with pr := m.pr + 2 } := by
    simp only [step_of_instructionAt hm hi, execute, effectiveAddress, if_true]
    rfl
  simp only [stepOn, hstep, hm]

end single

end Machine

end Comet
