import Comet.Proofs.Text.Encoding
import Mathlib.Algebra.Group.Nat.Defs
import Mathlib.Data.List.Forall2

namespace Comet.Text

/-- The hexadecimal digits and their values; from ten on they are letters of either case. -/
inductive IsHexDigit : Char → Nat → Prop
  | decimal {c : Char} (h : '0' ≤ c ∧ c ≤ '9') : IsHexDigit c (c.toNat - '0'.toNat)
  | lower {c : Char} (h : 'a' ≤ c ∧ c ≤ 'f') : IsHexDigit c (c.toNat - 'a'.toNat + 10)
  | upper {c : Char} (h : 'A' ≤ c ∧ c ≤ 'F') : IsHexDigit c (c.toNat - 'A'.toNat + 10)

/-- The digits are those of the number in base sixteen. -/
def IsHexadecimal (n : Nat) (digits : List Char) : Prop :=
  ∃ values, List.Forall₂ IsHexDigit digits values ∧
    values.foldl (fun value d => value * 16 + d) 0 = n

/-- Decimal digits, perhaps behind a sign, and the number that they stand for. -/
inductive IsSigned : List Char → Int → Prop
  | bare {n : Nat} {digits : List Char} (h : IsDecimal n digits) : IsSigned digits n
  | plus {n : Nat} {digits : List Char} (h : IsDecimal n digits) : IsSigned ('+' :: digits) n
  | minus {n : Nat} {digits : List Char} (h : IsDecimal n digits) : IsSigned ('-' :: digits) (-n)

section numerals

variable {c : Char} {d n value : Nat} {v : Int} {cs digits : List Char}

theorem digitValue?_hex_iff : digitValue? 16 c = some d ↔ IsHexDigit c d := by
  have hless (a b : Char) : a ≤ b ↔ a.toNat ≤ b.toNat := UInt32.le_iff_toNat_le
  have hcodes : '0'.toNat = 48 ∧ '9'.toNat = 57 ∧ 'A'.toNat = 65 ∧ 'F'.toNat = 70 ∧
      'Z'.toNat = 90 ∧ 'a'.toNat = 97 ∧ 'f'.toNat = 102 ∧ 'z'.toNat = 122 := by decide
  unfold digitValue?
  constructor
  · intro h
    obtain ⟨hvalue, hsmall⟩ := Option.filter_eq_some_iff.mp h
    rw [decide_eq_true_eq] at hsmall
    split_ifs at hvalue with hdigit hlower hupper <;> cases hvalue
    · exact .decimal hdigit
    · refine .lower ⟨hlower.1, ?_⟩
      rw [hless] at hlower ⊢
      omega
    · refine .upper ⟨hupper.1, ?_⟩
      rw [hless] at hupper ⊢
      omega
  · intro h
    cases h with
    | decimal h =>
      rw [if_pos h, Option.filter_some, if_pos]
      rw [hless, hless] at h
      rw [decide_eq_true_eq]
      omega
    | lower h =>
      rw [hless, hless] at h
      rw [if_neg (by rw [hless, hless]; omega), if_pos (by rw [hless, hless]; omega),
        Option.filter_some, if_pos (by rw [decide_eq_true_eq]; omega)]
    | upper h =>
      rw [hless, hless] at h
      rw [if_neg (by rw [hless, hless]; omega), if_neg (by rw [hless, hless]; omega),
        if_pos (by rw [hless, hless]; omega), Option.filter_some,
        if_pos (by rw [decide_eq_true_eq]; omega)]

theorem IsHexDigit.code_le (h : IsHexDigit c d) : c.toNat ≤ 102 := by
  have hless (a b : Char) : a ≤ b ↔ a.toNat ≤ b.toNat := UInt32.le_iff_toNat_le
  have hcodes : '9'.toNat = 57 ∧ 'F'.toNat = 70 ∧ 'f'.toNat = 102 := by decide
  cases h with
  | decimal h | lower h | upper h =>
    rw [hless, hless] at h
    omega

theorem IsHexDigit.lt (h : IsHexDigit c d) : d < 16 := by
  obtain ⟨-, hsmall⟩ := Option.filter_eq_some_iff.mp (digitValue?_hex_iff.mpr h)
  exact of_decide_eq_true hsmall

/-- A sign is no digit. -/
theorem IsHexDigit.ne_plus (h : IsHexDigit c d) : c ≠ '+' := by
  rintro rfl
  have hplus : digitValue? 16 '+' = none := by decide
  rw [digitValue?_hex_iff.mpr h] at hplus
  cases hplus

theorem digitsValue?_hex_iff : digitsValue? 16 value cs = some n ↔
    ∃ values, List.Forall₂ IsHexDigit cs values ∧
      values.foldl (fun value d => value * 16 + d) value = n := by
  induction cs generalizing value with
  | nil =>
    constructor
    · rintro ⟨⟩
      exact ⟨[], .nil, rfl⟩
    · rintro ⟨values, hvalues, rfl⟩
      cases hvalues
      rfl
  | cons c cs ih =>
    rw [digitsValue?, Option.bind_eq_some_iff]
    constructor
    · rintro ⟨d, hd, hrest⟩
      obtain ⟨values, hvalues, hn⟩ := ih.mp hrest
      exact ⟨d :: values, .cons (digitValue?_hex_iff.mp hd) hvalues, hn⟩
    · rintro ⟨_, hvalues, hn⟩
      cases hvalues with
      | cons hd hvalues => exact ⟨_, digitValue?_hex_iff.mpr hd, ih.mpr ⟨_, hvalues, hn⟩⟩

theorem natural?_hex_iff : natural? 16 cs = some n ↔ cs ≠ [] ∧ IsHexadecimal n cs := by
  cases cs with
  | nil => exact iff_of_false nofun (fun h => h.1 rfl)
  | cons c cs => exact digitsValue?_hex_iff.trans (and_iff_right (List.cons_ne_nil c cs)).symm

theorem hexadecimal?_iff :
    (natural? 16 digits).filter (· < 0x10000) = some n ↔
      n < 0x10000 ∧ digits ≠ [] ∧ IsHexadecimal n digits := by
  rw [Option.filter_eq_some_iff, natural?_hex_iff, decide_eq_true_eq, and_comm]

theorem unsigned?_hex_plus :
    unsigned? 16 0x10000 ('+' :: digits) = some n ↔
      n < 0x10000 ∧ digits ≠ [] ∧ IsHexadecimal n digits :=
  hexadecimal?_iff

theorem unsigned?_hex_of_ne_plus (hplain : ∀ rest, digits ≠ '+' :: rest) :
    unsigned? 16 0x10000 digits = some n ↔
      n < 0x10000 ∧ digits ≠ [] ∧ IsHexadecimal n digits := by
  rw [unsigned?_of_ne_plus hplain, hexadecimal?_iff]

/-- Digits take one byte each. -/
theorem IsHexadecimal.utf8ByteSize_eq (h : IsHexadecimal n cs) :
    (String.ofList cs).utf8ByteSize = cs.length := by
  obtain ⟨values, hvalues, -⟩ := h
  rw [← length_utf8Encode, utf8Encode_eq_flatMap, String.toList_ofList]
  induction hvalues with
  | nil => rfl
  | @cons c d cs values hd _ ih =>
    have hone : c.utf8Size = 1 := by
      have hcode := hd.code_le
      rw [Char.utf8Size_eq_one_iff, UInt32.le_iff_toNat_le]
      exact Nat.le_trans hcode (by decide)
    rw [List.flatMap_cons, List.length_append, ih, String.length_utf8EncodeChar, hone,
      List.length_cons, Nat.add_comm]

theorem IsHexadecimal.lt_pow (h : IsHexadecimal n cs) : n < 16 ^ cs.length := by
  obtain ⟨values, hvalues, rfl⟩ := h
  suffices hfold : ∀ value, values.foldl (fun value d => value * 16 + d) value <
      (value + 1) * 16 ^ cs.length by
    simpa using hfold 0
  induction hvalues with
  | nil => simp
  | @cons c d cs values hd _ ih =>
    intro value
    have hless : value * 16 + d + 1 ≤ (value + 1) * 16 := by
      have hd := hd.lt
      omega
    calc (d :: values).foldl (fun value d => value * 16 + d) value
        < (value * 16 + d + 1) * 16 ^ cs.length := ih _
      _ ≤ (value + 1) * 16 * 16 ^ cs.length := Nat.mul_le_mul_right _ hless
      _ = (value + 1) * 16 ^ (c :: cs).length := by
        rw [List.length_cons, Nat.pow_succ', Nat.mul_assoc]

theorem IsHexadecimal.ne_plus (h : IsHexadecimal n digits) (rest : List Char) :
    digits ≠ '+' :: rest := by
  rintro rfl
  obtain ⟨_, hvalues, -⟩ := h
  cases hvalues with
  | cons hplus => exact hplus.ne_plus rfl

theorem IsHexadecimal.fits (h : IsHexadecimal n digits) (hlow : 0 < digits.length)
    (hhigh : digits.length ≤ 4) : n < 0x10000 ∧ digits ≠ [] :=
  ⟨Nat.lt_of_lt_of_le h.lt_pow (Nat.pow_le_pow_right (by decide) hhigh),
    List.ne_nil_of_length_pos hlow⟩

theorem signed?_eq_some_iff : signed? cs = some v ↔ IsSigned cs v := by
  unfold signed?
  constructor
  · intro h
    split at h
    · obtain ⟨_, hvalue, rfl⟩ := Option.map_eq_some_iff.mp h
      obtain ⟨n, hn, hsome⟩ := Option.bind_eq_some_iff.mp hvalue
      cases hsome
      exact .minus (natural?_eq_some_iff.mp hn)
    · obtain ⟨n, hn, rfl⟩ := Option.map_eq_some_iff.mp h
      exact .plus (natural?_eq_some_iff.mp hn)
    · obtain ⟨n, hn, rfl⟩ := Option.map_eq_some_iff.mp h
      exact .bare (natural?_eq_some_iff.mp hn)
  · intro h
    cases h with
    | minus h | plus h =>
      simp only [natural?_eq_some_iff.mpr h]
      rfl
    | bare h =>
      split
      · exact absurd (h.decimal '-' List.mem_cons_self) (by decide)
      · exact absurd (h.decimal '+' List.mem_cons_self) (by decide)
      · rw [natural?_eq_some_iff.mpr h, Option.map_some]
        rfl

end numerals

end Comet.Text
