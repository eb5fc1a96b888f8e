import Comet.Assembly.Link
import Comet.Proofs.Machine.Faults
import Comet.Proofs.Machine.StraightLine

namespace Comet

namespace Word

/-- The integer that a word stands for, in two's complement or without a sign. -/
def number (isSigned : Bool) (w : Word) : Int :=
  if isSigned then w.toInt16.toInt else w.toNat

/-- The integers for which there are words. -/
def InRange (isSigned : Bool) (n : Int) : Prop :=
  if isSigned then -0x8000 ≤ n ∧ n ≤ 0x7FFF else 0 ≤ n ∧ n ≤ 0xFFFF

theorem signed_eq (w : Word) : w.signed = w.toInt16.toInt := by
  have hw : w.toInt16.toInt = if 2 * w.toNat < 2 ^ 16 then (w.toNat : Int) else w.toNat - 2 ^ 16 :=
    BitVec.toInt_eq_toNat_cond w.toBitVec
  rw [hw]
  unfold signed
  split <;> split <;> omega

theorem isNegative_eq (w : Word) : w.isNegative = w.toBitVec.getLsbD 15 := by
  have hw := w.toNat_lt
  have hbit : w.toBitVec.getLsbD 15 = decide (w.toNat / 2 ^ 15 % 2 = 1) :=
    Nat.testBit_eq_decide_div_mod_eq
  rw [hbit, isNegative, decide_eq_decide]
  omega

/-- Either way a word is its integer modulo the number of words. -/
theorem number_emod (isSigned : Bool) (w : Word) : w.number isSigned % 0x10000 = w.toNat := by
  have hw := w.toNat_lt
  cases isSigned with
  | false =>
    rw [number, if_neg Bool.false_ne_true]
    omega
  | true =>
    rw [number, if_pos rfl, ← signed_eq, signed]
    split <;> omega

end Word

namespace Arithmetic

def isSigned : Arithmetic → Bool
  | adda | suba => true
  | addl | subl => false

/-- The sum or the difference, which may be any integer. -/
def exactResult (op : Arithmetic) (a b : Word) : Int :=
  match op with
  | adda | addl => a.number op.isSigned + b.number op.isSigned
  | suba | subl => a.number op.isSigned - b.number op.isSigned

variable (op : Arithmetic) (a b : Word)

theorem toNat_apply : ((op.apply a b).1.toNat : Int) = op.exactResult a b % 0x10000 := by
  have ha := a.number_emod op.isSigned
  have hb := b.number_emod op.isSigned
  cases op with
  | adda | addl =>
    simp only [apply, exactResult, UInt16.toNat_add]
    omega
  | suba | subl =>
    simp only [apply, exactResult, UInt16.toNat_sub]
    omega

theorem apply_snd : (op.apply a b).2 = true ↔ ¬ Word.InRange op.isSigned (op.exactResult a b) := by
  have ha := a.toNat_lt
  have hb := b.toNat_lt
  cases op with
  | adda | suba =>
    simp [apply, exactResult, isSigned, Word.number, Word.InRange, Word.signed_eq]
    omega
  | addl | subl =>
    simp [apply, exactResult, isSigned, Word.number, Word.InRange]
    omega

end Arithmetic

namespace Comparison

def isSigned : Comparison → Bool
  | cpa => true
  | cpl => false

theorem apply_eq (op : Comparison) (a b : Word) :
    op.apply a b = compare (a.number op.isSigned) (b.number op.isSigned) := by
  cases op with
  | cpa =>
    simp only [apply, isSigned, Word.number, if_true, Word.signed_eq]
  | cpl =>
    simp only [apply, isSigned, Word.number, Bool.false_eq_true, if_false, compare,
      compareOfLessAndEq, Int.ofNat_lt, Int.natCast_inj]

end Comparison

/-- When the jump is taken behind a comparison of two integers. A comparison never overflows. -/
def Jump.Holds (op : Jump) (a b : Int) : Prop :=
  match op with
  | jmi => a < b
  | jnz => a ≠ b
  | jze => a = b
  | jump => True
  | jpl => b < a
  | jov => False

theorem Jump.taken_compare (op : Jump) (a b : Int) :
    op.taken false (compare a b).isLT (compare a b).isEq = true ↔ op.Holds a b := by
  rcases Int.lt_trichotomy a b with h | rfl | h
  · have hcompare : compare a b = .lt := Int.compare_eq_lt.mpr h
    cases op <;> simp [taken, Holds, hcompare] <;> omega
  · cases op <;> simp [taken, Holds]
  · have hcompare : compare a b = .gt := Int.compare_eq_gt.mpr h
    cases op <;> simp [taken, Holds, hcompare] <;> omega

namespace Machine

variable {m : Machine} {i : Instruction} {r : RegisterField}

/-- What a register holds, if the machine has it: a general register, or the stack pointer. -/
def valueOf (m : Machine) (r : RegisterField) : Word := if h : r.val < 8 then m.gr[r.val] else m.sp

/-- The address of the instruction and its index register together, modulo the number of words. -/
def target (m : Machine) (i : Instruction) : Word :=
  i.base + if i.x = 0 then 0 else m.valueOf i.x

/-- The second operand: the word at the address, or what the second register holds. -/
def secondOperand (m : Machine) (i : Instruction) : Word :=
  if i.adr.isSome then m.read (m.target i) else m.valueOf i.x

theorem register_eq (h : m.HasRegister r) : m.register r = .ok (m.valueOf r) := by
  unfold register valueOf
  by_cases hr : r.val < 8
  · rw [dif_pos hr, dif_pos hr]
  · rw [dif_neg hr, dif_neg hr, if_pos (h.resolve_left hr)]

theorem effectiveAddress_eq (h : m.HasRegister i.x) : m.effectiveAddress i = .ok (m.target i) := by
  unfold effectiveAddress target
  split
  · rw [UInt16.add_zero]
  · rw [register_eq h]
    rfl

/-- The field 0 names no index register, so a missing one has another number. -/
theorem effectiveAddress_of_missing (h : ¬ m.HasRegister i.x) :
    m.effectiveAddress i = .error (.invalidRegister m.pr i.x) := by
  have hx : i.x ≠ 0 := by
    intro hx
    rw [hx] at h
    exact h (.inl (by decide))
  rw [effectiveAddress, if_neg hx, register_of_missing h]
  rfl

theorem operand_eq (h : m.HasRegister i.x) : m.operand i = .ok (m.secondOperand i) := by
  unfold operand secondOperand
  split
  · rw [effectiveAddress_eq h]
    rfl
  · exact register_eq h

theorem operand_of_missing (h : ¬ m.HasRegister i.x) :
    m.operand i = .error (.invalidRegister m.pr i.x) := by
  unfold operand
  split
  · rw [effectiveAddress_of_missing h]
    rfl
  · exact register_of_missing h

/-- A register that is there takes the word, and no other register does. -/
theorem setRegister_eq (h : m.HasRegister r) (w : Word) : ∃ m', m.setRegister r w = .ok m' ∧
    m' = { m with gr := m'.gr, sp := m'.sp } ∧ m'.valueOf r = w ∧
    ∀ r', r' ≠ r → m.HasRegister r' → m'.valueOf r' = m.valueOf r' := by
  unfold setRegister
  by_cases hr : r.val < 8
  · rw [dif_pos hr]
    refine ⟨_, rfl, rfl, ?_, ?_⟩
    · simp [valueOf, hr]
    · intro r' hne _
      have hval : r.val ≠ r'.val := fun heq => hne (Fin.ext heq.symm)
      unfold valueOf
      split
      · exact Vector.getElem_set_ne hr _ hval
      · rfl
  · have hsp := h.resolve_left hr
    rw [dif_neg hr, if_pos hsp]
    refine ⟨_, rfl, rfl, ?_, ?_⟩
    · simp [valueOf, hr]
    · rintro r' hne (hlow | ⟨rfl, -⟩)
      · simp [valueOf, hlow]
      · exact absurd hsp.1.symm hne

section operands

variable {k : Word → Word → Except Fault Machine}

/-- What an instruction does with its two operands. -/
def withOperands (m : Machine) (i : Instruction) (k : Word → Word → Except Fault Machine) :
    Except Fault Machine := do
  let a ← m.register i.r
  let b ← m.operand i
  k a b

theorem withOperands_eq (hr : m.HasRegister i.r) (hx : m.HasRegister i.x) :
    m.withOperands i k = k (m.valueOf i.r) (m.secondOperand i) := by
  rw [withOperands, register_eq hr, operand_eq hx]
  rfl

theorem withOperands_of_missing (h : ¬ (m.HasRegister i.r ∧ m.HasRegister i.x)) :
    ∃ r, (r = i.r ∨ r = i.x) ∧ ¬ m.HasRegister r ∧
      m.withOperands i k = .error (.invalidRegister m.pr r) := by
  by_cases hr : m.HasRegister i.r
  · have hx : ¬ m.HasRegister i.x := fun hx => h ⟨hr, hx⟩
    refine ⟨i.x, .inr rfl, hx, ?_⟩
    rw [withOperands, register_eq hr, operand_of_missing hx]
    rfl
  · refine ⟨i.r, .inl rfl, hr, ?_⟩
    rw [withOperands, register_of_missing hr]
    rfl

end operands

section steps

variable {σ : Type} {io : Console σ} {s : σ}

/-- A machine that has both registers of the instruction carries it out, and what it is then has the
property. Any other machine faults for want of a register. -/
structure CarriesOut (io : Console σ) (m : Machine) (s : σ) (i : Instruction)
    (P : Machine → Prop) : Prop where
  done : m.HasRegister i.r → m.HasRegister i.x →
    ∃ m', m.stepOn io s = ⟨.ok false, m', s⟩ ∧ P m'
  missing : ¬ (m.HasRegister i.r ∧ m.HasRegister i.x) → ∃ r, (r = i.r ∨ r = i.x) ∧
    ¬ m.HasRegister r ∧ (m.stepOn io s).result = .error (.invalidRegister (m.pr + i.size) r)

/-- The first register holds the result modulo the number of words, and the flags tell of it. -/
structure Computed (m : Machine) (i : Instruction) (op : Arithmetic) (m' : Machine) : Prop where
  result : ((m'.valueOf i.r).toNat : Int) =
    op.exactResult (m.valueOf i.r) (m.secondOperand i) % 0x10000
  overflow : m'.flags.overflow = true ↔
    ¬ Word.InRange op.isSigned (op.exactResult (m.valueOf i.r) (m.secondOperand i))
  sign : m'.flags.sign = (m'.valueOf i.r).toBitVec.getLsbD 15
  zero : m'.flags.zero = true ↔ m'.valueOf i.r = 0
  registers : ∀ r, r ≠ i.r → m.HasRegister r → m'.valueOf r = m.valueOf r
  others : m' = { m with gr := m'.gr, sp := m'.sp, flags := m'.flags, pr := m.pr + i.size }

/-- The step goes on at the address of the jump if the jump is taken, and behind the jump
otherwise. Only one that is taken wants its index register. -/
structure JumpsIf (io : Console σ) (m : Machine) (s : σ) (j : Instruction) (taken : Prop) :
    Prop where
  goes : taken → m.HasRegister j.x → m.stepOn io s = ⟨.ok false, { m with pr := m.target j }, s⟩
  missing : taken → ¬ m.HasRegister j.x →
    (m.stepOn io s).result = .error (.invalidRegister (m.pr + j.size) j.x)
  passes : ¬ taken → m.stepOn io s = ⟨.ok false, { m with pr := m.pr + j.size }, s⟩

/-- Only the flags have changed, and a jump is taken as the two operands compare. -/
structure Compared (io : Console σ) (m : Machine) (s : σ) (i : Instruction) (op : Comparison)
    (m' : Machine) : Prop where
  others : m' = { m with flags := m'.flags, pr := m.pr + i.size }
  jumps : ∀ j branch, m'.instructionAt m'.pr = .ok j → j.mnemonic = .jump branch →
    m'.JumpsIf io s j (branch.Holds ((m.valueOf i.r).number op.isSigned)
      ((m.secondOperand i).number op.isSigned))

/-- The machine that an instruction is carried out on: its program counter has moved on. -/
def past (m : Machine) (i : Instruction) : Machine := { m with pr := m.pr + i.size }

theorem carriesOut_withOperands {k : Word → Word → Except Fault Machine} {P : Machine → Prop}
    (hstep : m.step = (m.past i).attempt ((m.past i).withOperands i k))
    (hk : m.HasRegister i.r → ∃ m', k (m.valueOf i.r) (m.secondOperand i) = .ok m' ∧
      m'.halted = false ∧ P m') : CarriesOut io m s i P where
  done hr hx := by
    obtain ⟨m', hresult, hhalted, hP⟩ := hk hr
    have hoperands : (m.past i).withOperands i k = .ok m' :=
      (withOperands_eq (m := m.past i) hr hx).trans hresult
    refine ⟨m', ?_, hP⟩
    rw [hoperands] at hstep
    exact stepOn_of_done hstep hhalted
  missing h := by
    obtain ⟨r, hr, hmissing, hoperands⟩ := withOperands_of_missing (m := m.past i) (k := k) h
    refine ⟨r, hr, hmissing, ?_⟩
    rw [hoperands] at hstep
    simp only [stepOn, hstep, attempt]
    rfl

theorem carriesOut_arithmetic (hm : m.halted = false) (hi : m.instructionAt m.pr = .ok i)
    {op : Arithmetic} (hop : i.mnemonic = .arithmetic op) :
    CarriesOut io m s i (m.Computed i op) := by
  refine carriesOut_withOperands
    (k := fun a b => (m.past i).setResult i.r (op.apply a b).1 (op.apply a b).2) ?_ fun hr => ?_
  · rw [step_of_instructionAt hm hi, execute, hop]
    rfl
  · have hresult := op.toNat_apply (m.valueOf i.r) (m.secondOperand i)
    have hrange := op.apply_snd (m.valueOf i.r) (m.secondOperand i)
    generalize op.apply (m.valueOf i.r) (m.secondOperand i) = result at hresult hrange ⊢
    obtain ⟨m', hset, hothers, hvalue, hregisters⟩ :=
      setRegister_eq (m := m.past i) hr result.1
    refine ⟨{ m' with flags := flagsOf result.1 result.2 }, ?_, ?_, ?_⟩
    · rw [setResult, hset]
      rfl
    · rw [hothers]
      exact hm
    · have hvalue' : ({ m' with flags := flagsOf result.1 result.2 } : Machine).valueOf i.r =
          result.1 := hvalue
      refine ⟨?_, hrange, ?_, ?_, hregisters, ?_⟩
      · rw [hvalue', hresult]
      · rw [hvalue']
        exact result.1.isNegative_eq
      · rw [hvalue']
        exact decide_eq_true_iff
      · rw [hothers]
        rfl

theorem jumpsIf_of_taken_iff (hm : m.halted = false) {j : Instruction}
    (hj : m.instructionAt m.pr = .ok j) {branch : Jump} (hop : j.mnemonic = .jump branch)
    {taken : Prop}
    (htaken : branch.taken m.flags.overflow m.flags.sign m.flags.zero = true ↔ taken) :
    JumpsIf io m s j taken := by
  have hstep : m.step = if branch.taken m.flags.overflow m.flags.sign m.flags.zero then
      (m.past j).attempt do return { m.past j with pr := ← (m.past j).effectiveAddress j }
      else .done (m.past j) := by
    rw [step_of_instructionAt hm hj, execute, hop]
    rfl
  refine ⟨fun h hx => ?_, fun h hx => ?_, fun h => ?_⟩
  · rw [if_pos (htaken.mpr h), effectiveAddress_eq (m := m.past j) hx] at hstep
    exact stepOn_of_done hstep hm
  · rw [if_pos (htaken.mpr h), effectiveAddress_of_missing (m := m.past j) hx] at hstep
    simp only [stepOn, hstep]
    rfl
  · rw [if_neg (mt htaken.mp h)] at hstep
    exact stepOn_of_done hstep hm

theorem carriesOut_comparison (hm : m.halted = false) (hi : m.instructionAt m.pr = .ok i)
    {op : Comparison} (hop : i.mnemonic = .compare op) :
    CarriesOut io m s i (Compared io m s i op) := by
  let compared (a b : Word) : Machine := { m.past i with flags :=
    { overflow := false, sign := (op.apply a b).isLT, zero := (op.apply a b).isEq } }
  refine carriesOut_withOperands (k := fun a b => .ok (compared a b)) ?_ fun _ => ?_
  · rw [step_of_instructionAt hm hi, execute, hop]
    rfl
  · refine ⟨compared (m.valueOf i.r) (m.secondOperand i), rfl, hm, rfl, ?_⟩
    intro j branch hj hbranch
    refine jumpsIf_of_taken_iff (m := compared (m.valueOf i.r) (m.secondOperand i)) hm hj hbranch ?_
    have htaken := branch.taken_compare ((m.valueOf i.r).number op.isSigned)
      ((m.secondOperand i).number op.isSigned)
    rwa [← op.apply_eq] at htaken

/-- Whatever the machine, arithmetic leaves the sum or the difference of the two integers in the
first register, modulo the number of words, and says whether it is out of range. A jump behind a
comparison is taken as the two integers compare. -/
theorem arithmetic_and_jumps_follow_integers (hm : m.halted = false)
    (hi : m.instructionAt m.pr = .ok i) :
    (∀ op, i.mnemonic = .arithmetic op → CarriesOut io m s i (m.Computed i op)) ∧
      ∀ op, i.mnemonic = .compare op → CarriesOut io m s i (Compared io m s i op) :=
  ⟨fun _ hop => carriesOut_arithmetic hm hi hop, fun _ hop => carriesOut_comparison hm hi hop⟩

end steps

/-- Compares two registers and branches, to a subtraction if the first is less. -/
def branchingSource : String :=
  "MAIN START\n CPA GR1,GR2\n JMI LESS\n RET\nLESS SUBA GR1,GR2\n RET\n END\n"

/-- The source, loaded into a machine whose registers hold the least integer and 1. -/
def branchingMachine : Machine :=
  { ((assemble branchingSource {}).program.map fun p => (load p {}).toOption.getD {}).getD {} with
    gr := ⟨#[0, 0x8000, 1, 0, 0, 0, 0, 0], rfl⟩ }

/-- The least integer is less than 1, though their difference is out of range: the jump to address 4
is taken, and the subtraction there overflows to the greatest integer. -/
theorem least_integer_less_than_one :
    (∃ m', branchingMachine.stepOn LineQueue.console {} = ⟨.ok false, m', {}⟩ ∧
      m'.stepOn LineQueue.console {} = ⟨.ok false, { m' with pr := 4 }, {}⟩) ∧
    ∃ m', { branchingMachine with pr := 4 }.stepOn LineQueue.console {} = ⟨.ok false, m', {}⟩ ∧
      ((m'.valueOf 1).toNat : Int) = 0x7FFF ∧ m'.flags.overflow = true := by
  have hloaded : (branchingMachine.halted, branchingMachine.pr, branchingMachine.valueOf 1,
      branchingMachine.valueOf 2) = (false, 0, 0x8000, 1) := by decide +kernel
  have hdecoded : [0, 1, 4].map (fun address => Instruction.decode (branchingMachine.read address)
      (branchingMachine.read (address + 1))) = [some ⟨.compare .cpa, 1, 2, none⟩,
        some ⟨.jump .jmi, 0, 0, some 4⟩, some ⟨.arithmetic .suba, 1, 2, none⟩] := by decide +kernel
  generalize branchingMachine = m at *
  simp only [Prod.mk.injEq] at hloaded
  simp only [List.map_cons, List.map_nil, List.cons.injEq, ← instructionAt_eq_ok_iff] at hdecoded
  obtain ⟨hruns, hpr, hone, htwo⟩ := hloaded
  obtain ⟨hcompares, hjumps, hsubtracts, -⟩ := hdecoded
  have hr : m.HasRegister 1 := .inl (by decide)
  have hx : m.HasRegister 2 := .inl (by decide)
  constructor
  · rw [← hpr] at hcompares
    have hcarried : CarriesOut LineQueue.console m {} ⟨.compare .cpa, 1, 2, none⟩ _ :=
      (arithmetic_and_jumps_follow_integers hruns hcompares).2 .cpa rfl
    obtain ⟨m', hstep, hothers, hbranch⟩ := hcarried.done hr hx
    have hbehind : m'.pr = 1 := by rw [hothers, hpr]; rfl
    have hmemory : m'.memory = m.memory := by rw [hothers]
    have hj : m'.instructionAt m'.pr = .ok ⟨.jump .jmi, 0, 0, some 4⟩ := by
      rw [hbehind, instructionAt_congr hmemory, hjumps]
    have hless : (m.valueOf 1).number true < (m.valueOf 2).number true := by
      rw [hone, htwo]
      decide
    exact ⟨m', hstep, (hbranch _ .jmi hj rfl).goes hless (.inl (by decide))⟩
  · have hcarried : CarriesOut LineQueue.console { m with pr := 4 } {}
        ⟨.arithmetic .suba, 1, 2, none⟩ _ :=
      (arithmetic_and_jumps_follow_integers (m := { m with pr := 4 }) hruns hsubtracts).1 .suba rfl
    obtain ⟨m', hstep, hcomputed⟩ := hcarried.done hr hx
    have hresult : Arithmetic.suba.exactResult (m.valueOf 1) (m.valueOf 2) = -0x8001 := by
      rw [hone, htwo]
      decide
    refine ⟨m', hstep, hcomputed.result.trans (congrArg (· % 0x10000) hresult),
      hcomputed.overflow.mpr ?_⟩
    show ¬ Word.InRange true (Arithmetic.suba.exactResult (m.valueOf 1) (m.valueOf 2))
    rw [hresult]
    exact fun hrange => absurd hrange.1 (by decide)

end Machine

end Comet
