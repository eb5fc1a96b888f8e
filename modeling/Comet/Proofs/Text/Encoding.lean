import Comet.Text.Blank
import Comet.Text.Numeral
import Comet.Text.Utf8

namespace Comet.Text

section bytes

/-- The counting loop behind a list of bytes collects them from a position on. -/
theorem toList_loop_eq (bytes : ByteArray) (n i : Nat) (reversed : List UInt8)
    (hn : bytes.size ≤ i + n) :
    ByteArray.toList.loop bytes i reversed = reversed.reverse ++ bytes.data.toList.drop i := by
  induction n generalizing i reversed with
  | zero =>
    have hlength : bytes.data.toList.length ≤ i := by simpa using hn
    have hend : ¬ i < bytes.size := by omega
    rw [ByteArray.toList.loop.eq_1, if_neg hend, List.drop_of_length_le hlength, List.append_nil]
  | succ n ih =>
    rw [ByteArray.toList.loop.eq_1]
    by_cases hi : i < bytes.size
    · have hlength : i < bytes.data.toList.length := by simpa using hi
      have hnext : bytes.size ≤ i + 1 + n := by omega
      have hget : bytes.get! i = bytes.data.toList[i] := by
        show bytes.data[i]! = _
        rw [getElem!_pos bytes.data i (by simpa using hi), Array.getElem_toList]
      rw [if_pos hi, ih (i + 1) _ hnext, List.drop_eq_getElem_cons hlength, hget]
      simp
    · have hlength : bytes.data.toList.length ≤ i := by simpa using hi
      rw [if_neg hi, List.drop_of_length_le hlength, List.append_nil]

theorem utf8Encode_eq_data (s : String) : utf8Encode s = s.toByteArray.data.toList := by
  rw [utf8Encode, String.toUTF8_eq_toByteArray, ByteArray.toList,
    toList_loop_eq _ s.toByteArray.size 0 [] (by omega)]
  rfl

theorem utf8Encode_append (s t : String) : utf8Encode (s ++ t) = utf8Encode s ++ utf8Encode t := by
  simp only [utf8Encode_eq_data, String.toByteArray_append, ByteArray.toList_data_append]

theorem length_utf8Encode (s : String) : (utf8Encode s).length = s.utf8ByteSize := by
  rw [utf8Encode_eq_data, Array.length_toList, ByteArray.size_data, String.size_toByteArray]

theorem utf8Encode_eq_flatMap (s : String) :
    utf8Encode s = s.toList.flatMap String.utf8EncodeChar := by
  have hlist : s.toByteArray = s.toList.utf8Encode := by
    rw [← String.toByteArray_ofList, String.ofList_toList]
  rw [utf8Encode_eq_data, hlist, List.utf8Encode, List.toList_data_toByteArray]

theorem utf8Decode?_utf8Encode (s : String) : utf8Decode? (utf8Encode s) = some s := by
  have hbytes : (⟨(utf8Encode s).toArray⟩ : ByteArray) = s.toByteArray := by
    rw [utf8Encode_eq_data]
  rw [utf8Decode?, hbytes, String.fromUTF8?, dif_pos s.isValidUTF8]
  rfl

/-- Every byte of a character beyond ASCII is beyond ASCII. -/
theorem lineFeed_of_mem_utf8EncodeChar {c : Char} (h : 10 ∈ String.utf8EncodeChar c) :
    c = '\n' := by
  have hbyte : ∀ v : Nat, (10 : UInt8) = UInt8.ofNat v → v % 256 = 10 := by
    intro v hv
    have hvalue := congrArg UInt8.toNat hv
    rw [UInt8.toNat_ofNat'] at hvalue
    exact hvalue.symm
  suffices hcode : c.val.toNat = 10 from Char.ext (UInt32.toNat_inj.mp hcode)
  rw [String.utf8EncodeChar.eq_1] at h
  split at h
  · have hv := hbyte _ (List.mem_singleton.mp h)
    omega
  · exfalso
    split at h
    · simp only [List.mem_cons, List.not_mem_nil, or_false] at h
      rcases h with h | h <;> have hv := hbyte _ h <;> omega
    · split at h
      · simp only [List.mem_cons, List.not_mem_nil, or_false] at h
        rcases h with h | h | h <;> have hv := hbyte _ h <;> omega
      · simp only [List.mem_cons, List.not_mem_nil, or_false] at h
        rcases h with h | h | h | h <;> have hv := hbyte _ h <;> omega

theorem lineFeed_notMem_utf8Encode {s : String} (h : '\n' ∉ s.toList) : 10 ∉ utf8Encode s := by
  rw [utf8Encode_eq_flatMap, List.mem_flatMap]
  rintro ⟨c, hc, hbyte⟩
  exact h (lineFeed_of_mem_utf8EncodeChar hbyte ▸ hc)

end bytes

section blanks

variable {cs ds : List Char}

theorem trimEnd_eq_nil_iff : trimEnd cs = [] ↔ ∀ c ∈ cs, isBlank c = true := by
  induction cs with
  | nil => simp [trimEnd]
  | cons c cs ih =>
    have hcons : trimEnd (c :: cs) =
      if (trimEnd cs).isEmpty && isBlank c then [] else c :: trimEnd cs := rfl
    rw [hcons, List.forall_mem_cons, ← ih]
    cases hblank : isBlank c <;> cases trimEnd cs <;> simp

/-- White space at the end is dropped. -/
theorem trimEnd_append_of_blank (h : ∀ c ∈ ds, isBlank c = true) :
    trimEnd (cs ++ ds) = trimEnd cs := by
  rw [trimEnd, List.foldr_append]
  have hnil : trimEnd ds = [] := trimEnd_eq_nil_iff.mpr h
  rw [trimEnd] at hnil
  rw [hnil, trimEnd]

/-- What stands in front of something visible is kept. -/
theorem trimEnd_append_of_ne_nil (h : trimEnd ds ≠ []) :
    trimEnd (cs ++ ds) = cs ++ trimEnd ds := by
  induction cs with
  | nil => rfl
  | cons c cs ih =>
    have hcons : trimEnd (c :: (cs ++ ds)) =
      if (trimEnd (cs ++ ds)).isEmpty && isBlank c then [] else c :: trimEnd (cs ++ ds) := rfl
    have hne : (trimEnd (cs ++ ds)).isEmpty = false := by
      rw [ih, List.isEmpty_eq_false_iff]
      exact List.append_ne_nil_of_right_ne_nil cs h
    rw [List.cons_append, hcons, hne, ih]
    rfl

theorem trimEnd_of_visible (h : ∀ c ∈ cs, isBlank c = false) : trimEnd cs = cs := by
  induction cs with
  | nil => rfl
  | cons c cs ih =>
    obtain ⟨hc, hcs⟩ := List.forall_mem_cons.mp h
    have hcons : trimEnd (c :: cs) =
      if (trimEnd cs).isEmpty && isBlank c then [] else c :: trimEnd cs := rfl
    rw [hcons, ih hcs, hc, Bool.and_false]
    rfl

/-- Behind a word white space is dropped. -/
theorem trimEnd_word {before behind : List Char} (hvisible : ∀ c ∈ cs, isBlank c = false)
    (hne : cs ≠ []) (hbehind : ∀ c ∈ behind, isBlank c = true) :
    trimEnd (before ++ cs ++ behind) = before ++ cs := by
  have hword : trimEnd cs = cs := trimEnd_of_visible hvisible
  rw [trimEnd_append_of_blank hbehind, trimEnd_append_of_ne_nil (by rwa [hword]), hword]

/-- In front of a word white space is dropped. -/
theorem trim_word {before : List Char} (hbefore : ∀ c ∈ before, isBlank c = true)
    (hvisible : ∀ c ∈ cs, isBlank c = false) (hne : cs ≠ []) : trim (before ++ cs) = cs := by
  have hend : trimEnd (before ++ cs) = before ++ cs := by
    have hword : trimEnd cs = cs := trimEnd_of_visible hvisible
    rw [trimEnd_append_of_ne_nil (by rwa [hword]), hword]
  obtain ⟨c, cs, rfl⟩ := List.exists_cons_of_ne_nil hne
  have hfirst : ¬ isBlank c = true := by
    rw [hvisible c List.mem_cons_self]
    exact Bool.false_ne_true
  rw [trim, hend, trimStart, List.dropWhile_append_of_pos hbefore,
    List.dropWhile_cons_of_neg hfirst]

theorem trimEnd_prefix (cs : List Char) : trimEnd cs <+: cs := by
  induction cs with
  | nil => exact List.prefix_rfl
  | cons c cs ih =>
    have hcons : trimEnd (c :: cs) =
      if (trimEnd cs).isEmpty && isBlank c then [] else c :: trimEnd cs := rfl
    rw [hcons]
    split
    · exact List.nil_prefix
    · exact List.cons_prefix_cons.mpr ⟨rfl, ih⟩

/-- What is dropped from the end is white space. -/
theorem exists_trimEnd_append (cs : List Char) :
    ∃ behind, (∀ c ∈ behind, isBlank c = true) ∧ cs = trimEnd cs ++ behind := by
  induction cs with
  | nil => exact ⟨[], List.forall_mem_nil _, rfl⟩
  | cons c cs ih =>
    obtain ⟨behind, hblank, hcs⟩ := ih
    have hcons : trimEnd (c :: cs) =
      if (trimEnd cs).isEmpty && isBlank c then [] else c :: trimEnd cs := rfl
    rw [hcons]
    by_cases hdropped : ((trimEnd cs).isEmpty && isBlank c) = true
    · rw [if_pos hdropped]
      rw [Bool.and_eq_true, List.isEmpty_iff] at hdropped
      rw [hdropped.1, List.nil_append] at hcs
      exact ⟨c :: behind, List.forall_mem_cons.mpr ⟨hdropped.2, hblank⟩, by rw [← hcs]; rfl⟩
    · rw [if_neg hdropped]
      exact ⟨behind, hblank, by rw [List.cons_append, ← hcs]⟩

theorem exists_append_trim (cs : List Char) : ∃ before behind,
    (∀ c ∈ before ++ behind, isBlank c = true) ∧ cs = before ++ trim cs ++ behind := by
  obtain ⟨behind, hbehind, hcs⟩ := exists_trimEnd_append cs
  refine ⟨(trimEnd cs).takeWhile isBlank, behind, ?_, ?_⟩
  · exact List.forall_mem_append.mpr ⟨List.all_eq_true.mp List.all_takeWhile, hbehind⟩
  · rw [trim, trimStart, List.takeWhile_append_dropWhile, ← hcs]

/-- A text that ends in something visible is a prefix just as well without white space behind. -/
theorem prefix_trimEnd_iff (h : trimEnd ds = ds) : ds <+: trimEnd cs ↔ ds <+: cs := by
  have hkept := trimEnd_prefix cs
  refine ⟨fun hprefix => hprefix.trans hkept, ?_⟩
  rintro ⟨rest, rfl⟩
  by_cases hrest : trimEnd rest = []
  · have hsame : trimEnd (ds ++ rest) = ds := by
      rw [trimEnd_append_of_blank (trimEnd_eq_nil_iff.mp hrest), h]
    exact ⟨[], by rw [List.append_nil, hsame]⟩
  · rw [trimEnd_append_of_ne_nil hrest]
    exact List.prefix_append _ _

end blanks

section numerals

theorem code_of_isDigit {c : Char} (h : c.isDigit = true) : 48 ≤ c.toNat ∧ c.toNat ≤ 57 := by
  simp only [Char.isDigit, ge_iff_le, Bool.and_eq_true, decide_eq_true_eq, UInt32.le_iff_toNat_le]
    at h
  exact h

/-- Between the space and the next line there is no white space. -/
theorem isBlank_of_code {c : Char} (hlow : 0x20 < c.toNat) (hhigh : c.toNat < 0x85) :
    isBlank c = false := by
  rw [isBlank, List.any_eq_false]
  intro range hrange
  rw [Bool.and_eq_true, decide_eq_true_eq, decide_eq_true_eq]
  simp only [blankRanges, List.mem_cons, List.not_mem_nil, or_false] at hrange
  rcases hrange with rfl | rfl | rfl | rfl | rfl | rfl | rfl | rfl | rfl | rfl <;> omega

theorem isBlank_of_isDigit {c : Char} (h : c.isDigit = true) : isBlank c = false := by
  obtain ⟨hlow, hhigh⟩ := code_of_isDigit h
  exact isBlank_of_code (by omega) (by omega)

theorem code_of_isUpper {c : Char} (h : c.isUpper = true) : 65 ≤ c.toNat ∧ c.toNat ≤ 90 := by
  obtain ⟨hlow, hhigh⟩ := of_decide_eq_true h
  exact ⟨UInt32.le_iff_toNat_le.mp hlow, UInt32.le_iff_toNat_le.mp hhigh⟩

theorem isBlank_of_isUpper {c : Char} (h : c.isUpper = true) : isBlank c = false := by
  obtain ⟨hlow, hhigh⟩ := code_of_isUpper h
  exact isBlank_of_code (by omega) (by omega)

theorem digitValue?_of_isDigit {c : Char} (h : c.isDigit = true) :
    digitValue? 10 c = some (c.toNat - '0'.toNat) := by
  obtain ⟨hlow, hhigh⟩ := code_of_isDigit h
  have hdecimal : '0' ≤ c ∧ c ≤ '9' := by
    rwa [Char.isDigit, Bool.and_eq_true, decide_eq_true_eq, decide_eq_true_eq] at h
  have hbelow : c.toNat - '0'.toNat < 10 := by
    have hzero : '0'.toNat = 48 := rfl
    omega
  rw [digitValue?, if_pos hdecimal, Option.filter_some, if_pos (decide_eq_true hbelow)]

theorem digitsValue?_eq_ofDigitChars {cs : List Char} (h : ∀ c ∈ cs, c.isDigit = true) (n : Nat) :
    digitsValue? 10 n cs = some (Nat.ofDigitChars 10 cs n) := by
  induction cs generalizing n with
  | nil => rfl
  | cons c cs ih =>
    obtain ⟨hc, hcs⟩ := List.forall_mem_cons.mp h
    rw [digitsValue?, digitValue?_of_isDigit hc, Option.bind_some, ih hcs, Nat.ofDigitChars_cons,
      Nat.mul_comm]

theorem isDigit_of_mem_toString {n : Nat} {c : Char} (h : c ∈ (toString n).toList) :
    c.isDigit = true := by
  rw [Nat.toString_eq_ofList_toDigits, String.toList_ofList] at h
  exact Nat.isDigit_of_mem_toDigits (by omega) (by omega) h

theorem toString_ne_nil (n : Nat) : (toString n).toList ≠ [] := by
  rw [Nat.toString_eq_ofList_toDigits, String.toList_ofList]
  exact Nat.toDigits_ne_nil

/-- The digits are those of the number. -/
structure IsDecimal (n : Nat) (digits : List Char) : Prop where
  nonempty : digits ≠ []
  decimal : ∀ c ∈ digits, c.isDigit = true
  value : Nat.ofDigitChars 10 digits 0 = n

theorem isDigit_of_digitValue? {c : Char} {d : Nat} (h : digitValue? 10 c = some d) :
    c.isDigit = true := by
  obtain ⟨hvalue, hsmall⟩ := Option.filter_eq_some_iff.mp h
  rw [decide_eq_true_eq] at hsmall
  by_cases hdecimal : '0' ≤ c ∧ c ≤ '9'
  · rwa [Char.isDigit, Bool.and_eq_true, decide_eq_true_eq, decide_eq_true_eq]
  · rw [if_neg hdecimal] at hvalue
    split at hvalue
    · cases hvalue
      omega
    · split at hvalue
      · cases hvalue
        omega
      · cases hvalue

theorem digitsValue?_eq_some_iff {cs : List Char} {value n : Nat} :
    digitsValue? 10 value cs = some n ↔
      (∀ c ∈ cs, c.isDigit = true) ∧ Nat.ofDigitChars 10 cs value = n := by
  constructor
  · intro h
    have hdigits : ∀ c ∈ cs, c.isDigit = true := by
      induction cs generalizing value with
      | nil => exact List.forall_mem_nil _
      | cons c cs ih =>
        obtain ⟨d, hd, hrest⟩ := Option.bind_eq_some_iff.mp h
        exact List.forall_mem_cons.mpr ⟨isDigit_of_digitValue? hd, ih hrest⟩
    rw [digitsValue?_eq_ofDigitChars hdigits] at h
    exact ⟨hdigits, Option.some.inj h⟩
  · rintro ⟨hdigits, rfl⟩
    exact digitsValue?_eq_ofDigitChars hdigits value

theorem natural?_eq_some_iff {cs : List Char} {n : Nat} :
    natural? 10 cs = some n ↔ IsDecimal n cs := by
  cases cs with
  | nil => exact iff_of_false nofun (fun h => h.nonempty rfl)
  | cons c cs =>
    have hdigits : natural? 10 (c :: cs) = digitsValue? 10 0 (c :: cs) := rfl
    rw [hdigits, digitsValue?_eq_some_iff]
    exact ⟨fun h => ⟨List.cons_ne_nil c cs, h.1, h.2⟩, fun h => ⟨h.decimal, h.value⟩⟩

section unsigned

variable {radix bound : Nat} {cs : List Char}

theorem unsigned?_plus (rest : List Char) : unsigned? radix bound ('+' :: rest) =
    (natural? radix rest).filter (· < bound) := rfl

theorem unsigned?_of_ne_plus (hplain : ∀ rest, cs ≠ '+' :: rest) :
    unsigned? radix bound cs = (natural? radix cs).filter (· < bound) := by
  unfold unsigned?
  split
  · exact absurd rfl (hplain _)
  · rfl

end unsigned

/-- A sign in front of the digits makes no difference. -/
theorem unsigned?_eq_some_iff {bound n : Nat} {cs : List Char} :
    unsigned? 10 bound cs = some n ↔
      n < bound ∧ ∃ digits, IsDecimal n digits ∧ (cs = digits ∨ cs = '+' :: digits) := by
  have hread (digits : List Char) : (natural? 10 digits).filter (· < bound) = some n ↔
      n < bound ∧ IsDecimal n digits := by
    rw [Option.filter_eq_some_iff, natural?_eq_some_iff, decide_eq_true_eq, and_comm]
  by_cases hsign : ∃ rest, cs = '+' :: rest
  · obtain ⟨rest, rfl⟩ := hsign
    rw [unsigned?_plus, hread]
    refine and_congr_right' ⟨fun h => ⟨rest, h, Or.inr rfl⟩, ?_⟩
    rintro ⟨digits, hdigits, rfl | hsigned⟩
    · have hsign := hdigits.decimal '+' List.mem_cons_self
      exact absurd hsign (by decide)
    · rwa [List.cons.inj hsigned |>.2]
  · have hplain := not_exists.mp hsign
    rw [unsigned?_of_ne_plus hplain, hread]
    refine and_congr_right' ⟨fun h => ⟨cs, h, Or.inl rfl⟩, ?_⟩
    rintro ⟨digits, hdigits, rfl | rfl⟩
    · exact hdigits
    · exact absurd rfl (hplain digits)

theorem isDecimal_toString (n : Nat) : IsDecimal n (toString n).toList where
  nonempty := toString_ne_nil n
  decimal _ := isDigit_of_mem_toString
  value := by
    rw [Nat.toString_eq_ofList_toDigits, String.toList_ofList, Nat.ofDigitChars_ten_toDigits]

end numerals

end Comet.Text
