import Comet.Assembly.Link
import Comet.Proofs.Text.Numerals
import Comet.Proofs.Text.Quotes

namespace Comet.Assembly

open Text

/-- One to eight upper-case letters and digits, a letter first, and no name of a register. -/
structure IsLabelText (cs : List Char) : Prop where
  letter : ∃ c ∈ cs.head?, c.isUpper = true
  short : cs.length ≤ 8
  plain : ∀ c ∈ cs, c.isUpper = true ∨ c.isDigit = true
  free : ∀ d, '0' ≤ d → d ≤ '8' → cs ≠ ['G', 'R', d]

/-- What a constant is written as, and the cells that it stands for. -/
inductive ConstantText : List Char → List Cell → Prop
  | string {s : List Char} (h : s ≠ []) :
      ConstantText (quote s) (s.map fun c => .value (Word.ofChar c))
  | hexadecimal {n : Nat} {digits : List Char} (h : IsHexadecimal n digits)
      (hfour : digits.length = 4) : ConstantText ('#' :: digits) [.value (.ofNat n)]
  | decimal {v : Int} {w : Word} {cs : List Char} (h : IsSigned cs v) (hlow : -32768 ≤ v)
      (hhigh : v ≤ 65535) (hw : (w.toNat : Int) = v % 65536) : ConstantText cs [.value w]
  | label {cs : List Char} (h : IsLabelText cs) : ConstantText cs [.label (.ofList cs)]

/-- Three hexadecimal digits behind a sign, and the number that they stand for. -/
inductive SignedHexText : List Char → List Cell → Prop
  | intro {n : Nat} {digits : List Char} (h : IsHexadecimal n digits)
      (hthree : digits.length = 3) : SignedHexText ('#' :: '+' :: digits) [.value (.ofNat n)]

section grammar

variable {cs digits : List Char} {cells : List Cell}

theorem isRegisterName_iff :
    isRegisterName cs = true ↔ ∃ d, ('0' ≤ d ∧ d ≤ '8') ∧ cs = ['G', 'R', d] := by
  constructor
  · intro h
    unfold isRegisterName at h
    split at h
    · exact ⟨_, by simpa using h, rfl⟩
    · cases h
  · rintro ⟨d, hd, rfl⟩
    simpa [isRegisterName] using hd

theorem isLabel_iff : isLabel cs = true ↔ IsLabelText cs := by
  cases cs with
  | nil => exact iff_of_false Bool.false_ne_true (by rintro ⟨⟨c, hc, -⟩, -⟩; cases hc)
  | cons c rest =>
    have hlabel : isLabel (c :: rest) = (c.isUpper && (c :: rest).length ≤ 8 &&
      rest.all (fun d => d.isUpper || d.isDigit) && !isRegisterName (c :: rest)) := rfl
    rw [hlabel]
    simp only [Bool.and_eq_true, decide_eq_true_eq, List.all_eq_true, Bool.or_eq_true,
      Bool.not_eq_true', Bool.eq_false_iff, ne_eq, isRegisterName_iff]
    constructor
    · rintro ⟨⟨⟨hupper, hshort⟩, hrest⟩, hfree⟩
      refine ⟨⟨c, rfl, hupper⟩, hshort, List.forall_mem_cons.mpr ⟨Or.inl hupper, hrest⟩, ?_⟩
      exact fun d hlow hhigh hname => hfree ⟨d, ⟨hlow, hhigh⟩, hname⟩
    · rintro ⟨⟨d, hd, hupper⟩, hshort, hplain, hfree⟩
      obtain rfl : c = d := Option.some.inj hd
      refine ⟨⟨⟨hupper, hshort⟩, (List.forall_mem_cons.mp hplain).2⟩, ?_⟩
      rintro ⟨d, ⟨hlow, hhigh⟩, hname⟩
      exact hfree d hlow hhigh hname

theorem stringConstant_iff :
    stringConstant cs = .ok cells ↔
      ∃ s, s ≠ [] ∧ cs = quote s ∧ cells = s.map fun c => .value (Word.ofChar c) := by
  constructor
  · intro h
    unfold stringConstant at h
    cases hs : unquote cs with
    | none => simp [hs] at h
    | some s =>
      cases s with
      | nil => simp [hs] at h
      | cons c s =>
        rw [hs] at h
        cases h
        exact ⟨c :: s, List.cons_ne_nil c s, unquote_eq_some_iff.mp hs, rfl⟩
  · rintro ⟨s, hne, rfl, rfl⟩
    rw [stringConstant, unquote_eq_some_iff.mpr rfl]
    cases s with
    | nil => exact absurd rfl hne
    | cons c s => rfl

theorem utf8ByteSize_plus (rest : List Char) :
    (String.ofList ('+' :: rest)).utf8ByteSize = (String.ofList rest).utf8ByteSize + 1 := by
  simp only [← length_utf8Encode, utf8Encode_eq_flatMap, String.toList_ofList,
    List.flatMap_cons, List.length_append]
  exact Nat.add_comm 1 _

/-- Four bytes are four digits, or a sign and three of them. -/
theorem fourBytes_hex_iff {n : Nat} : (String.ofList digits).utf8ByteSize = 4 ∧
    unsigned? 16 0x10000 digits = some n ↔ IsHexadecimal n digits ∧ digits.length = 4 ∨
      ∃ rest, digits = '+' :: rest ∧ IsHexadecimal n rest ∧ rest.length = 3 := by
  constructor
  · rintro ⟨hsize, hvalue⟩
    by_cases hsign : ∃ rest, digits = '+' :: rest
    · obtain ⟨rest, rfl⟩ := hsign
      obtain ⟨-, -, hn⟩ := unsigned?_hex_plus.mp hvalue
      rw [utf8ByteSize_plus, hn.utf8ByteSize_eq] at hsize
      exact Or.inr ⟨rest, rfl, hn, Nat.succ.inj hsize⟩
    · obtain ⟨-, -, hn⟩ := (unsigned?_hex_of_ne_plus (not_exists.mp hsign)).mp hvalue
      rw [hn.utf8ByteSize_eq] at hsize
      exact Or.inl ⟨hn, hsize⟩
  · rintro (⟨hn, hfour⟩ | ⟨rest, rfl, hn, hthree⟩)
    · obtain ⟨hless, hne⟩ := hn.fits (by omega) (by omega)
      exact ⟨by rw [hn.utf8ByteSize_eq, hfour],
        (unsigned?_hex_of_ne_plus hn.ne_plus).mpr ⟨hless, hne, hn⟩⟩
    · obtain ⟨hless, hne⟩ := hn.fits (by omega) (by omega)
      exact ⟨by rw [utf8ByteSize_plus, hn.utf8ByteSize_eq, hthree],
        unsigned?_hex_plus.mpr ⟨hless, hne, hn⟩⟩

/-- The length is that of four bytes, so the place of the first digit may be taken by a sign. -/
theorem hexConstant_iff :
    hexConstant ('#' :: digits) digits = .ok cells ↔
      ∃ n, cells = [.value (.ofNat n)] ∧
        (IsHexadecimal n digits ∧ digits.length = 4 ∨
          ∃ rest, digits = '+' :: rest ∧ IsHexadecimal n rest ∧ rest.length = 3) := by
  simp only [← fourBytes_hex_iff]
  unfold hexConstant
  by_cases hsize : (String.ofList digits).utf8ByteSize = 4
  · rw [if_neg (not_not.mpr hsize)]
    cases unsigned? 16 0x10000 digits with
    | none => simp
    | some n => simp [hsize, eq_comm]
  · simp [hsize]

theorem decimalConstant_iff :
    decimalConstant cs = .ok cells ↔
      ∃ (v : Int) (w : Word), IsSigned cs v ∧ -32768 ≤ v ∧ v ≤ 65535 ∧
        (w.toNat : Int) = v % 65536 ∧ cells = [.value w] := by
  have hword (v : Int) : ((UInt16.ofNat (v % 65536).toNat).toNat : Int) = v % 65536 := by
    have hless : (v % 65536).toNat < 65536 := by omega
    rw [UInt16.toNat_ofNat_of_lt' hless]
    omega
  unfold decimalConstant
  constructor
  · intro h
    cases hv : signed? cs with
    | none => simp [hv] at h
    | some v =>
      by_cases hrange : -32768 ≤ v ∧ v ≤ 65535
      · simp only [hv, if_pos hrange, Except.ok.injEq] at h
        exact ⟨v, _, signed?_eq_some_iff.mp hv, hrange.1, hrange.2, hword v, h.symm⟩
      · simp [hv, hrange] at h
  · rintro ⟨v, w, hv, hlow, hhigh, hw, rfl⟩
    have hsame : UInt16.ofNat (v % 65536).toNat = w := by
      apply UInt16.toNat_inj.mp
      have hsame := (hword v).trans hw.symm
      omega
    simp only [signed?_eq_some_iff.mpr hv, if_pos (And.intro hlow hhigh), hsame]

end grammar

section accepted

variable {cs : List Char} {cells : List Cell}

/-- A number begins with a digit or a sign, by which it is told from other constants. -/
theorem exists_startsDecimal {v : Int} (h : IsSigned cs v) :
    ∃ c rest, cs = c :: rest ∧ startsDecimal c = true := by
  cases h with
  | plus | minus => exact ⟨_, _, rfl, rfl⟩
  | bare h =>
    obtain ⟨c, rest, rfl⟩ := List.exists_cons_of_ne_nil h.nonempty
    have hdigit := h.decimal c List.mem_cons_self
    exact ⟨c, rest, rfl, by simp [startsDecimal, hdigit]⟩

theorem constant_quoted (rest : List Char) :
    constant ('\'' :: rest) = stringConstant ('\'' :: rest) := rfl

theorem constant_hash (digits : List Char) :
    constant ('#' :: digits) = hexConstant ('#' :: digits) digits := rfl

theorem constant_of_ne {c : Char} (hquote : c ≠ '\'') (hhash : c ≠ '#') (rest : List Char) :
    constant (c :: rest) =
      if startsDecimal c then decimalConstant (c :: rest)
      else if isLabel (c :: rest) then .ok [.label (.ofList (c :: rest))]
      else .error (.invalidConstant (.ofList (c :: rest))) := by
  rw [constant]
  · exact hquote
  · exact hhash

theorem constant_of_startsDecimal {c : Char} {rest : List Char} (h : startsDecimal c = true) :
    constant (c :: rest) = decimalConstant (c :: rest) := by
  have hquote : c ≠ '\'' := by rintro rfl; cases h
  have hhash : c ≠ '#' := by rintro rfl; cases h
  rw [constant_of_ne hquote hhash, if_pos h]

theorem constant_of_isLabel (h : isLabel cs = true) :
    constant cs = .ok [.label (.ofList cs)] := by
  obtain ⟨c, hc, hupper⟩ := (isLabel_iff.mp h).letter
  cases cs with
  | nil => cases hc
  | cons d rest =>
    obtain rfl : d = c := Option.some.inj hc
    obtain ⟨hlow, hhigh⟩ := code_of_isUpper hupper
    have hne (e : Char) (he : e.toNat < 65) : d ≠ e := by
      rintro rfl
      omega
    have hplain : startsDecimal d = false := by
      have hdigit : d.isDigit = false := by
        refine Bool.eq_false_iff.mpr fun hdigit => ?_
        have hcode := code_of_isDigit hdigit
        omega
      simp [startsDecimal, hdigit, hne '-' (by decide), hne '+' (by decide)]
    rw [constant_of_ne (hne _ (by decide)) (hne _ (by decide)), hplain,
      if_neg Bool.false_ne_true, if_pos h]

theorem ConstantText.accepted (h : ConstantText cs cells) : constant cs = .ok cells := by
  cases h with
  | string hne =>
    rw [quote, constant_quoted, stringConstant_iff]
    exact ⟨_, hne, rfl, rfl⟩
  | @hexadecimal n digits hn hfour =>
    rw [constant_hash, hexConstant_iff]
    exact ⟨n, rfl, Or.inl ⟨hn, hfour⟩⟩
  | @decimal v w _ hv hlow hhigh hw =>
    obtain ⟨c, rest, rfl, hc⟩ := exists_startsDecimal hv
    rw [constant_of_startsDecimal hc, decimalConstant_iff]
    exact ⟨v, w, hv, hlow, hhigh, hw, rfl⟩
  | label hlabel => exact constant_of_isLabel (isLabel_iff.mpr hlabel)

theorem SignedHexText.accepted (h : SignedHexText cs cells) : constant cs = .ok cells := by
  cases h with
  | @intro n digits hn hthree =>
    rw [constant_hash, hexConstant_iff]
    exact ⟨n, rfl, Or.inr ⟨digits, rfl, hn, hthree⟩⟩

/-- The first character tells which kind of constant a text has to be. -/
theorem text_of_constant (h : constant cs = .ok cells) :
    ConstantText cs cells ∨ SignedHexText cs cells := by
  cases cs with
  | nil => cases h
  | cons c rest =>
    by_cases hquote : c = '\''
    · rw [hquote, constant_quoted, stringConstant_iff] at h
      obtain ⟨s, hne, hs, rfl⟩ := h
      rw [hquote, hs]
      exact Or.inl (.string hne)
    by_cases hhash : c = '#'
    · rw [hhash, constant_hash, hexConstant_iff] at h
      rw [hhash]
      obtain ⟨n, rfl, ⟨hn, hfour⟩ | ⟨rest, rfl, hn, hthree⟩⟩ := h
      · exact Or.inl (.hexadecimal hn hfour)
      · exact Or.inr (.intro hn hthree)
    rw [constant_of_ne hquote hhash] at h
    by_cases hdecimal : startsDecimal c = true
    · rw [if_pos hdecimal, decimalConstant_iff] at h
      obtain ⟨v, w, hv, hlow, hhigh, hw, rfl⟩ := h
      exact Or.inl (.decimal hv hlow hhigh hw)
    · rw [if_neg hdecimal] at h
      by_cases hlabel : isLabel (c :: rest) = true
      · rw [if_pos hlabel] at h
        cases h
        exact Or.inl (.label (isLabel_iff.mp hlabel))
      · rw [if_neg hlabel] at h
        cases h

/-- A text with a sign in the place of a digit is in none of the four forms. -/
theorem SignedHexText.not_constantText {others : List Cell} (h : SignedHexText cs cells) :
    ¬ ConstantText cs others := by
  intro htext
  cases h with
  | intro hn hthree =>
    cases htext with
    | hexadecimal hm => exact hm.ne_plus _ rfl
    | decimal hv =>
      obtain ⟨c, rest, heq, hc⟩ := exists_startsDecimal hv
      obtain ⟨rfl, -⟩ := List.cons.inj heq
      cases hc
    | label hlabel =>
      obtain ⟨c, hc, hupper⟩ := hlabel.letter
      cases hc
      cases hupper

end accepted

/-- A text is accepted as a constant, with the cells that it stands for, if it is a string, four
hexadecimal digits, a decimal number in range or a label. What else is accepted is a sign before
three hexadecimal digits, and nothing more. -/
theorem constants_accepted_by_grammar_or_signed_hex (cs : List Char) (cells : List Cell) :
    (constant cs = .ok cells ↔ ConstantText cs cells ∨ SignedHexText cs cells) ∧
      ¬ (ConstantText cs cells ∧ SignedHexText cs cells) := by
  refine ⟨⟨text_of_constant, ?_⟩, fun h => h.2.not_constantText h.1⟩
  rintro (htext | hsigned)
  · exact htext.accepted
  · exact hsigned.accepted

/-- Three digits are enough if a sign stands before them. -/
theorem three_digits_behind_sign_accepted :
    (assemble "MAIN START\n DC #+FFF\n RET\n END\n" {}).diagnostics = [] ∧
      constant "#+FFF".toList = .ok [.value 0x0FFF] ∧
      ¬ ((∃ cells, constant "#+FFF".toList = .ok cells) ↔
        ∃ cells, ConstantText "#+FFF".toList cells) := by
  have hdigits : IsHexadecimal 0xFFF "FFF".toList :=
    ⟨[15, 15, 15], .cons (.upper (by decide)) (.cons (.upper (by decide))
      (.cons (.upper (by decide)) .nil)), rfl⟩
  have hsigned : SignedHexText "#+FFF".toList [.value 0x0FFF] := .intro hdigits rfl
  refine ⟨by decide +kernel, hsigned.accepted, fun h => ?_⟩
  obtain ⟨cells, htext⟩ := h.mp ⟨_, hsigned.accepted⟩
  exact hsigned.not_constantText htext

end Comet.Assembly
