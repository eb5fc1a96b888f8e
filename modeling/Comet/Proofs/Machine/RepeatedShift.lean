import Comet.Machine.Operation
import Mathlib.Logic.Function.Iterate

namespace Comet

namespace Shift

variable (op : Shift) (b : BitVec 16)

/-- The sixteen bits, moved by some places. An arithmetic shift leaves the sign bit where it is, and
one to the right copies it. -/
def moved (places : Nat) : BitVec 16 :=
  match op with
  | sla => .cons b.msb (b.setWidth 15 <<< places)
  | sra => b.sshiftRight places
  | sll => b <<< places
  | srl => b >>> places

/-- The bit that the next place moves out. -/
def leaving : Bool :=
  match op with
  | sla => b.getLsbD 14
  | sra | srl => b.getLsbD 0
  | sll => b.getLsbD 15

/-- Shifts by one bit as often as asked for, and keeps the bit that was moved out last. -/
def repeated (count : Nat) : BitVec 16 × Bool :=
  (fun s : BitVec 16 × Bool => (op.moved s.1 1, op.leaving s.1))^[count] (b, false)

theorem toBitVec_once (w : Word) : (op.once w).1.toBitVec = op.moved w.toBitVec 1 := by
  have hw := w.toNat_lt
  apply BitVec.eq_of_toNat_eq
  cases op with
  | sla =>
    rw [moved, BitVec.toNat_cons']
    by_cases h : 0x8000 ≤ w.toNat <;> simp [once, BitVec.msb_eq_decide, h] <;> omega
  | sra =>
    rw [moved, BitVec.toNat_sshiftRight]
    by_cases h : 0x8000 ≤ w.toNat <;> simp [once, BitVec.msb_eq_decide, h] <;> omega
  | sll =>
    simp only [once, moved, UInt16.toNat_toBitVec, BitVec.toNat_shiftLeft, UInt16.toNat_ofNat']
    omega
  | srl =>
    simp only [once, moved, UInt16.toNat_toBitVec, BitVec.toNat_ushiftRight, UInt16.toNat_ofNat']
    omega

theorem once_snd (w : Word) : (op.once w).2 = op.leaving w.toBitVec := by
  have hw := w.toNat_lt
  have hbit (i : Nat) : w.toBitVec.getLsbD i = (w.toNat / 2 ^ i % 2 == 1) := by
    rw [Bool.beq_eq_decide_eq]
    exact Nat.testBit_eq_decide_div_mod_eq
  cases op with
  | sla => simp only [once, leaving, hbit, Nat.reducePow]
  | sra | srl => simp only [once, leaving, hbit, Nat.pow_zero, Nat.div_one]
  | sll =>
    have htop : w.toNat / 0x8000 % 2 = w.toNat / 0x8000 := by omega
    simp only [once, leaving, hbit, Nat.reducePow, htop]

theorem times_eq (w : Word) (out : Bool) (count : Nat) :
    ((op.times w out count).1.toBitVec, (op.times w out count).2) =
      (fun s : BitVec 16 × Bool => (op.moved s.1 1, op.leaving s.1))^[count] (w.toBitVec, out) := by
  induction count generalizing w out with
  | zero => rfl
  | succ count ih => rw [times, ih, toBitVec_once, once_snd, Function.iterate_succ_apply]

theorem apply_eq_repeated (w count : Word) :
    ((op.apply w count).1.toBitVec, (op.apply w count).2) =
      op.repeated w.toBitVec (min count.toNat 16) :=
  op.times_eq w false _

@[simp] theorem moved_zero : op.moved b 0 = b := by
  cases op <;> simp [moved]

theorem moved_moved (m n : Nat) : op.moved (op.moved b m) n = op.moved b (m + n) := by
  cases op with
  | sla => simp only [moved, BitVec.msb_cons, BitVec.setWidth_cons, BitVec.shiftLeft_add]
  | sra => exact BitVec.sshiftRight_add.symm
  | sll => exact (BitVec.shiftLeft_add b m n).symm
  | srl => exact (BitVec.shiftRight_add b m n).symm

/-- All places at once come to the same as one after the other. -/
theorem repeated_succ (count : Nat) :
    op.repeated b (count + 1) = (op.moved b (count + 1), op.leaving (op.moved b count)) := by
  induction count with
  | zero => rw [moved_zero]; rfl
  | succ count ih => rw [repeated, Function.iterate_succ_apply', ← repeated, ih, moved_moved]

/-- The places after which there is nothing left to move. -/
def rest : Nat :=
  match op with
  | sla | sra => 15
  | sll | srl => 16

theorem moved_of_rest_le {places : Nat} (h : op.rest ≤ places) :
    op.moved b places = op.moved b op.rest := by
  cases op with
  | sla =>
    have hlow (n : Nat) (hn : 15 ≤ n) : b.setWidth 15 <<< n = 0 := BitVec.shiftLeft_eq_zero hn
    simp only [moved, rest, hlow places h, hlow 15 (Nat.le_refl 15)]
  | sra =>
    have hsign (n : Nat) (hn : 15 ≤ n) (i : Nat) (hi : i < 16) :
        (b.sshiftRight n).getLsbD i = b.msb := by
      rw [BitVec.getLsbD_sshiftRight, BitVec.msb_eq_getLsbD_last]
      by_cases hlast : n + i < 16
      · have hn15 : n + i = 15 := by omega
        simp [hn15, hi]
      · simp [hlast, hi]
    apply BitVec.eq_of_getLsbD_eq
    intro i hi
    rw [moved, moved, rest, hsign places h i hi, hsign 15 (Nat.le_refl 15) i hi]
  | sll =>
    have hall (n : Nat) (hn : 16 ≤ n) : b <<< n = 0 := BitVec.shiftLeft_eq_zero hn
    simp only [moved, rest, hall places h, hall 16 (Nat.le_refl 16)]
  | srl =>
    have hall (n : Nat) (hn : 16 ≤ n) : b >>> n = 0 := BitVec.ushiftRight_eq_zero hn
    simp only [moved, rest, hall places h, hall 16 (Nat.le_refl 16)]

/-- A logical shift goes on after the sixteenth place, which has moved out a one. -/
def PassesOne (count : Nat) : Prop :=
  16 < count ∧ match op with
    | sla | sra => False
    | sll => b.getLsbD 0 = true
    | srl => b.getLsbD 15 = true

theorem leaving_sixteenth_iff {places : Nat} (h : 16 ≤ places) :
    op.leaving (op.moved b 15) = op.leaving (op.moved b places) ↔
      ¬ op.PassesOne b (places + 1) := by
  have hmore : 16 < places + 1 := Nat.lt_succ_of_le h
  cases op with
  | sla =>
    rw [moved_of_rest_le sla b (Nat.le_of_succ_le h)]
    exact iff_of_true rfl (·.2)
  | sra =>
    rw [moved_of_rest_le sra b (Nat.le_of_succ_le h)]
    exact iff_of_true rfl (·.2)
  | sll =>
    have hfirst : (b <<< 15).getLsbD 15 = b.getLsbD 0 := by simp
    simp only [PassesOne, leaving, moved, hfirst, hmore, BitVec.shiftLeft_eq_zero h,
      BitVec.getLsbD_zero, true_and, Bool.not_eq_true]
  | srl =>
    have hlast : (b >>> 15).getLsbD 0 = b.getLsbD 15 := BitVec.getLsbD_ushiftRight b 15 0
    simp only [PassesOne, leaving, moved, hlast, hmore, BitVec.ushiftRight_eq_zero h,
      BitVec.getLsbD_zero, true_and, Bool.not_eq_true]

/-- A shift stops after sixteen bits. The word is the one that all the single shifts come to. The
last bit shifted out is also theirs, unless a logical shift has moved out a one with the sixteenth
bit and has more to go. -/
theorem clamped_shift_repeats_unless_one_passed (w count : Word) :
    (op.apply w count).1.toBitVec = (op.repeated w.toBitVec count.toNat).1 ∧
      ((op.apply w count).2 = (op.repeated w.toBitVec count.toNat).2 ↔
        ¬ op.PassesOne w.toBitVec count.toNat) := by
  have hword : (op.apply w count).1.toBitVec =
      (op.repeated w.toBitVec (min count.toNat 16)).1 :=
    congrArg Prod.fst (op.apply_eq_repeated w count)
  have hout : (op.apply w count).2 = (op.repeated w.toBitVec (min count.toNat 16)).2 :=
    congrArg Prod.snd (op.apply_eq_repeated w count)
  rw [hword, hout]
  rcases Nat.lt_or_ge 16 count.toNat with hmore | hless
  · obtain ⟨places, hplaces⟩ : ∃ places, count.toNat = places + 1 := ⟨count.toNat - 1, by omega⟩
    have hrest : op.rest ≤ 16 := by cases op <;> decide
    rw [hplaces] at hmore ⊢
    rw [Nat.min_eq_right (by omega), repeated_succ _ _ places, repeated_succ _ _ 15]
    constructor
    · exact (op.moved_of_rest_le _ hrest).trans (op.moved_of_rest_le _ (by omega)).symm
    · exact op.leaving_sixteenth_iff _ (Nat.le_of_lt_succ hmore)
  · rw [Nat.min_eq_left hless]
    exact ⟨rfl, iff_of_true rfl fun hpasses => Nat.not_lt_of_ge hless hpasses.1⟩

/-- The only one of a word is moved out to the left by the sixteenth bit. The seventeenth bit is a
zero, but the one is what is said to have been shifted out last. -/
theorem sixteenth_bit_shifted_out_last :
    ¬ ∀ (op : Shift) (w count : Word), ((op.apply w count).1.toBitVec, (op.apply w count).2) =
      op.repeated w.toBitVec count.toNat := by
  intro h
  have hlast : (sll.apply 1 17).2 = (sll.repeated 1 17).2 := congrArg Prod.snd (h sll 1 17)
  exact absurd hlast (by decide)

end Shift

end Comet
