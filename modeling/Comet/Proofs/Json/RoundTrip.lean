import Comet.Json.Printer
import Comet.Json.Reader
import Comet.Proofs.Text.Encoding
import Mathlib.Tactic.SplitIfs

namespace Comet.Json

/-- An integer that fits into 64 bits, with a sign or without one. -/
def Number.Whole : Number → Prop
  | .int n => -0x8000000000000000 ≤ n ∧ n < 0x10000000000000000
  | .double _ => False

/-- The numbers in the value are whole, and at most `depth` arrays and objects are around each
other. -/
inductive Plain : Nat → Json → Prop
  | null (depth : Nat) : Plain depth .null
  | bool (depth : Nat) (b : Bool) : Plain depth (.bool b)
  | num {depth : Nat} {n : Number} (hwhole : n.Whole) : Plain depth (.num n)
  | str (depth : Nat) (s : String) : Plain depth (.str s)
  | arr {depth : Nat} {items : List Json} (hitems : ∀ v ∈ items, Plain depth v) :
      Plain (depth + 1) (.arr items)
  | obj {depth : Nat} {members : List (String × Json)}
      (hmembers : ∀ m ∈ members, Plain depth m.2) : Plain (depth + 1) (.obj members)

section strings

theorem unit?_control : ∀ n < 32, unit? '0' '0' (lowerHexDigit (n / 16)) (lowerHexDigit (n % 16)) =
    some n := by decide

/-- A character is read back from what is written for it. -/
theorem stringRest_escapeChar (c : Char) (reversed cs : List Char) :
    stringRest reversed (escapeChar c ++ cs) = stringRest (c :: reversed) cs := by
  have hsame : ∀ n, c.toNat = n → c = Char.ofNat n := by
    intro n hn
    rw [← hn, Char.ofNat_toNat]
  unfold escapeChar
  split_ifs with hquote hbackslash hline hreturn htab hback hfeed hcontrol
  · rw [hquote]
    rfl
  · rw [hbackslash]
    rfl
  · rw [hline]
    rfl
  · rw [hreturn]
    rfl
  · rw [htab]
    rfl
  · rw [hsame 8 hback]
    rfl
  · rw [hsame 12 hfeed]
    rfl
  · have hunit := unit?_control c.toNat hcontrol
    have hlow : ¬ (0xDC00 ≤ c.toNat ∧ c.toNat ≤ 0xDFFF) := by omega
    have hhigh : ¬ (0xD800 ≤ c.toNat ∧ c.toNat ≤ 0xDBFF) := by omega
    simp only [List.cons_append, List.nil_append]
    rw [stringRest, hunit]
    simp only [if_neg hlow, if_neg hhigh, Char.ofNat_toNat]
  · have hplain : ¬ (c.toNat < 32 ∨ c = '\\') := not_or.mpr ⟨hcontrol, hbackslash⟩
    rw [List.singleton_append, stringRest, if_neg hplain]
    · exact hquote
    · intro a b c' d cs' hescape
      exact absurd hescape hbackslash
    · intro e cs' hescape
      exact absurd hescape hbackslash

theorem stringRest_flatMap (chars reversed cs : List Char) :
    stringRest reversed (chars.flatMap escapeChar ++ '"' :: cs) =
      some (.ofList (reversed.reverse ++ chars), cs) := by
  induction chars generalizing reversed with
  | nil => rw [List.append_nil]; rfl
  | cons c chars ih =>
    rw [List.flatMap_cons, List.append_assoc, stringRest_escapeChar, ih, List.reverse_cons,
      List.append_assoc]
    rfl

theorem toList_stringText (s : String) :
    (stringText s).toList = '"' :: (stringText s).toList.tail := by
  rw [stringText, String.toList_ofList, List.tail_cons]

/-- A string is read back from behind its opening quote. -/
theorem stringRest_stringText (s : String) (cs : List Char) :
    stringRest [] ((stringText s).toList.tail ++ cs) = some (s, cs) := by
  have htail : (stringText s).toList.tail ++ cs = s.toList.flatMap escapeChar ++ '"' :: cs := by
    rw [stringText, String.toList_ofList, List.tail_cons, List.append_assoc]
    rfl
  rw [htail, stringRest_flatMap, List.reverse_nil, List.nil_append, String.ofList_toList]

end strings

section numbers

/-- No digit stands here, nor anything else that a number could go on with. -/
def EndsNumber (cs : List Char) : Prop :=
  ∀ c ∈ cs.head?, c.isDigit = false ∧ c ≠ '.' ∧ c ≠ 'e' ∧ c ≠ 'E'

theorem le_ofDigitChars (cs : List Char) (n : Nat) : n ≤ Nat.ofDigitChars 10 cs n := by
  induction cs generalizing n with
  | nil => exact Nat.le_refl n
  | cons c cs ih =>
    have hnext := ih (10 * n + (c.toNat - '0'.toNat))
    rw [Nat.ofDigitChars_cons]
    omega

/-- All digits of a number are taken as long as its value fits. -/
theorem digits_append {cs rest : List Char} (hcs : ∀ c ∈ cs, c.isDigit = true)
    (hrest : EndsNumber rest) {value : Nat}
    (hfits : Nat.ofDigitChars 10 cs value < 0x10000000000000000) (kept : Nat) :
    digits value kept 0 (cs ++ rest) =
      ⟨Nat.ofDigitChars 10 cs value, kept + cs.length, 0, rest⟩ := by
  induction cs generalizing value kept with
  | nil =>
    cases rest with
    | nil => rfl
    | cons c rest =>
      have hend : ¬ c.isDigit = true := by simp [(hrest c rfl).1]
      exact if_neg hend
  | cons c cs ih =>
    obtain ⟨hc, hcs⟩ := List.forall_mem_cons.mp hcs
    rw [Nat.ofDigitChars_cons, Nat.mul_comm] at hfits
    have hnext : value * 10 + (c.toNat - '0'.toNat) < 0x10000000000000000 :=
      Nat.lt_of_le_of_lt (le_ofDigitChars cs _) hfits
    have hstep : digits value kept 0 (c :: (cs ++ rest)) =
        digits (value * 10 + (c.toNat - '0'.toNat)) (kept + 1) 0 (cs ++ rest) := by
      rw [digits, if_pos hc]
      exact if_pos ⟨rfl, hnext⟩
    rw [List.cons_append, hstep, ih hcs hfits, Nat.ofDigitChars_cons, Nat.mul_comm 10,
      List.length_cons, Nat.add_assoc, Nat.add_comm 1]

/-- Only the numeral of zero begins with a zero. -/
theorem head_toDigits {n : Nat} (hn : 0 < n) : ∃ c cs, Nat.toDigits 10 n = c :: cs ∧ c ≠ '0' := by
  have hdigit : ∀ n < 10, 0 < n → n.digitChar ≠ '0' := by decide
  induction n using Nat.strongRecOn with
  | _ n ih =>
    by_cases hsmall : n < 10
    · exact ⟨n.digitChar, [], Nat.toDigits_of_lt_base hsmall, hdigit n hsmall hn⟩
    · obtain ⟨c, cs, hdigits, hc⟩ := ih (n / 10) (by omega) (by omega)
      refine ⟨c, cs ++ [(n % 10).digitChar], ?_, hc⟩
      rw [Nat.toDigits_of_base_le (by omega) (by omega), hdigits, List.cons_append]

theorem numberRest_of_ends {rest : List Char} (hrest : EndsNumber rest) {negative : Bool}
    {value kept : Nat} (hsign : negative = true → 0 < value ∧ value ≤ 0x8000000000000000) :
    numberRest negative ⟨value, kept, 0, rest⟩ =
      some (.int (if negative then -(value : Int) else value), rest) := by
  have hwhole : ¬ (0 ≠ 0 ∨ negative = true ∧ (value = 0 ∨ 0x8000000000000000 < value)) := by
    rintro (h | ⟨hnegative, h⟩)
    · exact h rfl
    · have hbounds := hsign hnegative
      omega
  rw [numberRest.eq_def]
  dsimp only
  split
  case h_1 cs => exact absurd rfl (hrest '.' rfl).2.1
  case h_2 cs => exact absurd rfl (hrest 'e' rfl).2.2.1
  case h_3 cs => exact absurd rfl (hrest 'E' rfl).2.2.2
  case h_4 => exact if_neg hwhole

/-- The numeral of a number without a sign is read as that number. -/
theorem number_toString {n : Nat} (hfits : n < 0x10000000000000000) {rest : List Char}
    (hrest : EndsNumber rest) (negative : Bool)
    (hsign : negative = true → 0 < n ∧ n ≤ 0x8000000000000000) :
    number negative ((toString n).toList ++ rest) =
      some (.int (if negative then -(n : Int) else n), rest) := by
  rw [Nat.toString_eq_ofList_toDigits, String.toList_ofList]
  have hdigits : ∀ c ∈ Nat.toDigits 10 n, c.isDigit = true :=
    fun c hc => Nat.isDigit_of_mem_toDigits (by omega) (by omega) hc
  by_cases hzero : n = 0
  · rw [hzero] at hsign ⊢
    cases rest with
    | nil => exact numberRest_of_ends hrest hsign
    | cons c rest =>
      have hend : ¬ c.isDigit = true := by simp [(hrest c rfl).1]
      exact (if_neg hend).trans (numberRest_of_ends hrest hsign)
  · obtain ⟨c, cs, hcs, hc⟩ := head_toDigits (Nat.pos_of_ne_zero hzero)
    have hread := digits_append hdigits hrest
      (by rwa [Nat.ofDigitChars_ten_toDigits] : Nat.ofDigitChars 10 _ 0 < 0x10000000000000000) 0
    rw [Nat.ofDigitChars_ten_toDigits] at hread
    rw [hcs] at hdigits hread ⊢
    rw [List.cons_append] at hread ⊢
    rw [number, if_pos (hdigits c List.mem_cons_self), hread, numberRest_of_ends hrest hsign]
    · intro c' cs' hfirst
      exact fun _ => hc hfirst
    · intro hfirst
      exact fun _ => hc hfirst

end numbers

section written

/-- What stands in front of an item or a member. -/
def separator (first : Bool) : String := if first then "" else ","

theorem append_separator (out : String) (first : Bool) :
    (if first then out else out ++ ",") = out ++ separator first := by
  cases first
  · rfl
  · exact String.append_empty.symm

mutual

/-- A value is written behind what has been written before. -/
theorem write_eq_append (out : String) : ∀ v : Json, write out v = out ++ text v
  | .null | .bool _ | .num _ | .str _ => by simp only [text, write, String.empty_append]
  | .arr items => by
    have hwritten (s : String) :
        write s (.arr items) = s ++ "[" ++ writeItems "" true items ++ "]" := by
      rw [write, writeItems_eq_append _ true items]
    rw [text, hwritten out, hwritten ""]
    simp only [String.append_assoc, String.empty_append]
  | .obj members => by
    have hwritten (s : String) :
        write s (.obj members) = s ++ "\x7b" ++ writeMembers "" true members ++ "\x7d" := by
      rw [write, writeMembers_eq_append _ true members]
    rw [text, hwritten out, hwritten ""]
    simp only [String.append_assoc, String.empty_append]

theorem writeItems_eq_append (out : String) (first : Bool) :
    ∀ items : List Json, writeItems out first items = out ++ writeItems "" first items
  | [] => by rw [writeItems, writeItems, String.append_empty]
  | v :: rest => by
    have hwritten (s : String) : writeItems s first (v :: rest) =
        s ++ separator first ++ text v ++ writeItems "" false rest := by
      rw [writeItems, append_separator, writeItems_eq_append _ false rest, write_eq_append _ v]
    rw [hwritten out, hwritten ""]
    simp only [String.append_assoc, String.empty_append]

theorem writeMembers_eq_append (out : String) (first : Bool) :
    ∀ members : List (String × Json),
      writeMembers out first members = out ++ writeMembers "" first members
  | [] => by rw [writeMembers, writeMembers, String.append_empty]
  | (name, v) :: rest => by
    have hwritten (s : String) : writeMembers s first ((name, v) :: rest) =
        s ++ separator first ++ stringText name ++ ":" ++ text v ++
          writeMembers "" false rest := by
      rw [writeMembers, append_separator, writeMembers_eq_append _ false rest,
        write_eq_append _ v]
    rw [hwritten out, hwritten ""]
    simp only [String.append_assoc, String.empty_append]

end

theorem toList_comma : ",".toList = [','] := rfl

theorem toList_colon : ":".toList = [':'] := rfl

theorem toList_items (v : Json) (rest : List Json) :
    (writeItems "" true (v :: rest)).toList =
      (text v).toList ++ (writeItems "" false rest).toList := by
  rw [writeItems, if_pos rfl, writeItems_eq_append, String.toList_append]
  rfl

theorem toList_moreItems (v : Json) (rest : List Json) :
    (writeItems "" false (v :: rest)).toList = ',' :: (writeItems "" true (v :: rest)).toList := by
  rw [toList_items]
  simp only [writeItems, Bool.false_eq_true, if_false]
  rw [writeItems_eq_append, write_eq_append, String.empty_append]
  simp only [String.toList_append, toList_comma, List.cons_append, List.nil_append]

theorem toList_members (name : String) (v : Json) (rest : List (String × Json)) :
    (writeMembers "" true ((name, v) :: rest)).toList =
      (stringText name).toList ++
        ':' :: ((text v).toList ++ (writeMembers "" false rest).toList) := by
  simp only [writeMembers, if_true]
  rw [String.empty_append, writeMembers_eq_append, write_eq_append]
  simp only [String.toList_append, List.append_assoc, toList_colon, List.cons_append,
    List.nil_append]

theorem toList_moreMembers (name : String) (v : Json) (rest : List (String × Json)) :
    (writeMembers "" false ((name, v) :: rest)).toList =
      ',' :: (writeMembers "" true ((name, v) :: rest)).toList := by
  rw [toList_members]
  simp only [writeMembers, Bool.false_eq_true, if_false]
  rw [writeMembers_eq_append, write_eq_append, String.empty_append]
  simp only [String.toList_append, List.append_assoc, toList_comma, toList_colon,
    List.cons_append, List.nil_append]

theorem toList_arr (items : List Json) :
    (text (.arr items)).toList = '[' :: ((writeItems "" true items).toList ++ [']']) := by
  rw [text, write, writeItems_eq_append, String.toList_append, String.toList_append,
    String.empty_append]
  rfl

theorem toList_obj (members : List (String × Json)) :
    (text (.obj members)).toList =
      '\x7b' :: ((writeMembers "" true members).toList ++ ['\x7d']) := by
  rw [text, write, writeMembers_eq_append, String.toList_append, String.toList_append,
    String.empty_append]
  rfl

end written

section reading

variable {depth : Nat}

/-- The value is read back from its text, whatever stands behind that. -/
def ReadBack (depth : Nat) (v : Json) : Prop :=
  ∀ rest fuel, EndsNumber rest → (text v).toList.length ≤ fuel →
    value depth ((text v).toList ++ rest) fuel = some (v, rest)

theorem skipBlanks_skipBlanks (cs : List Char) : skipBlanks (skipBlanks cs) = skipBlanks cs := by
  induction cs with
  | nil => rfl
  | cons c cs ih =>
    have hskip : skipBlanks (c :: cs) = skipBlanks cs ∨ skipBlanks (c :: cs) = c :: cs := by
      simp only [skipBlanks, List.dropWhile_cons]
      split
      · exact Or.inl rfl
      · exact Or.inr rfl
    rcases hskip with hskip | hskip
    · rw [hskip, ih]
    · rw [hskip, hskip]

theorem skipBlanks_quote (cs : List Char) : skipBlanks ('"' :: cs) = '"' :: cs := rfl

theorem skipBlanks_colon (cs : List Char) : skipBlanks (':' :: cs) = ':' :: cs := rfl

theorem value_skipBlanks (cs : List Char) (fuel : Nat) :
    value depth (skipBlanks cs) fuel = value depth cs fuel := by
  cases fuel with
  | zero => rfl
  | succ fuel => rw [value, value, skipBlanks_skipBlanks]

theorem value_of_digit {c : Char} (hc : c.isDigit = true) (cs : List Char) (fuel : Nat) :
    value depth (c :: cs) (fuel + 1) =
      (number false (c :: cs)).map fun read => (.num read.1, read.2) := by
  obtain ⟨hlow, hhigh⟩ := Text.code_of_isDigit hc
  have hdigit : c.toNat = 48 ∨ c.toNat = 49 ∨ c.toNat = 50 ∨ c.toNat = 51 ∨ c.toNat = 52 ∨
      c.toNat = 53 ∨ c.toNat = 54 ∨ c.toNat = 55 ∨ c.toNat = 56 ∨ c.toNat = 57 := by omega
  rw [← Char.ofNat_toNat c]
  rcases hdigit with h | h | h | h | h | h | h | h | h | h <;> rw [h] <;> rfl

theorem readBack_num {n : Number} (hwhole : n.Whole) : ReadBack depth (.num n) := by
  intro rest fuel hrest hfuel
  cases n with
  | double => exact hwhole.elim
  | int n =>
    obtain ⟨hlow, hhigh⟩ := hwhole
    cases n with
    | ofNat n =>
      have htext : (text (.num (.int (.ofNat n)))).toList = (toString n).toList := by
        rw [text, write, String.empty_append]
        rfl
      rw [Int.ofNat_eq_natCast] at hhigh
      have hread := number_toString (by omega : n < 0x10000000000000000) hrest false
        (fun hsign => absurd hsign Bool.false_ne_true)
      obtain ⟨c, cs, hcs⟩ := List.exists_cons_of_ne_nil (Text.toString_ne_nil n)
      have hc : c.isDigit = true := Text.isDigit_of_mem_toString (hcs ▸ List.mem_cons_self)
      rw [htext, hcs, List.length_cons] at hfuel
      obtain ⟨fuel, rfl⟩ : ∃ k, fuel = k + 1 := ⟨fuel - 1, by omega⟩
      rw [hcs, List.cons_append] at hread
      rw [htext, hcs, List.cons_append, value_of_digit hc, hread]
      rfl
    | negSucc n =>
      have htext : (text (.num (.int (.negSucc n)))).toList = '-' :: (toString (n + 1)).toList := by
        rw [text, write, String.empty_append]
        exact String.toList_append
      have hread := number_toString (by omega : n + 1 < 0x10000000000000000) hrest true
        (fun _ => by omega)
      rw [htext, List.length_cons] at hfuel
      obtain ⟨fuel, rfl⟩ : ∃ k, fuel = k + 1 := ⟨fuel - 1, by omega⟩
      have hsign : value depth ('-' :: ((toString (n + 1)).toList ++ rest)) (fuel + 1) =
          (number true ((toString (n + 1)).toList ++ rest)).map
            fun read => (.num read.1, read.2) := rfl
      rw [htext, List.cons_append, hsign, hread]
      rfl

theorem readBack_str (s : String) : ReadBack depth (.str s) := by
  intro rest fuel _ hfuel
  have htext : (text (.str s)).toList = '"' :: (stringText s).toList.tail := by
    rw [text, write, String.empty_append]
    exact toList_stringText s
  rw [htext, List.length_cons] at hfuel
  obtain ⟨fuel, rfl⟩ : ∃ k, fuel = k + 1 := ⟨fuel - 1, by omega⟩
  have hquote : value depth ('"' :: ((stringText s).toList.tail ++ rest)) (fuel + 1) =
      (stringRest [] ((stringText s).toList.tail ++ rest)).map
        fun read => (.str read.1, read.2) := rfl
  rw [htext, List.cons_append, hquote, stringRest_stringText]
  rfl

theorem endsNumber_cons {c : Char} {rest : List Char} (hc : c = ',' ∨ c = ']' ∨ c = '\x7d') :
    EndsNumber (c :: rest) := by
  intro c' hc'
  obtain rfl := Option.some.inj hc'
  rcases hc with rfl | rfl | rfl <;> decide

section steps

variable {cs rest : List Char} {v : Json} {fuel : Nat}

theorem items_comma (hvalue : value depth cs fuel = some (v, ',' :: rest)) (reversed : List Json) :
    items depth reversed cs (fuel + 1) = items depth (v :: reversed) rest fuel := by
  rw [items, hvalue]
  rfl

theorem items_bracket (hvalue : value depth cs fuel = some (v, ']' :: rest))
    (reversed : List Json) :
    items depth reversed cs (fuel + 1) = some (.arr (v :: reversed).reverse, rest) := by
  rw [items, hvalue]
  rfl

theorem members_comma (hvalue : value depth cs fuel = some (v, ',' :: rest)) (name : String)
    (reversed : List (String × Json)) :
    members depth reversed ((stringText name).toList ++ ':' :: cs) (fuel + 1) =
      members depth ((name, v) :: reversed) rest fuel := by
  have hcomma : skipBlanks (',' :: rest) = ',' :: rest := rfl
  rw [toList_stringText, List.cons_append, members, skipBlanks_quote]
  simp only [stringRest_stringText, skipBlanks_colon, hvalue, hcomma]

theorem members_brace (hvalue : value depth cs fuel = some (v, '\x7d' :: rest)) (name : String)
    (reversed : List (String × Json)) :
    members depth reversed ((stringText name).toList ++ ':' :: cs) (fuel + 1) =
      some (.obj ((name, v) :: reversed).reverse, rest) := by
  have hbrace : skipBlanks ('\x7d' :: rest) = '\x7d' :: rest := rfl
  rw [toList_stringText, List.cons_append, members, skipBlanks_quote]
  simp only [stringRest_stringText, skipBlanks_colon, hvalue, hbrace]

/-- An array that is not empty does not begin with the bracket that closes it. -/
theorem value_of_items {read : Json × List Char} (hitems : items depth [] cs fuel = some read) :
    value (depth + 1) ('[' :: cs) (fuel + 1) = some read := by
  have hbracket : skipBlanks ('[' :: cs) = '[' :: cs := rfl
  cases fuel with
  | zero => cases hitems
  | succ fuel =>
    have hskipped : items depth [] (skipBlanks cs) (fuel + 1) = some read := by
      rw [← hitems, items, items, value_skipBlanks]
    have hopen : ∀ rest, skipBlanks cs ≠ ']' :: rest := by
      intro rest hclosed
      rw [hclosed] at hskipped
      cases fuel <;> cases hskipped
    rw [value, hbracket]
    simp only
    exact hskipped

end steps

/-- The items of an array are read back, behind those that have been read already. -/
theorem items_written {v : Json} {vs : List Json} (hv : ReadBack depth v)
    (hvs : ∀ w ∈ vs, ReadBack depth w) (reversed : List Json) (rest : List Char) {fuel : Nat}
    (hfuel : (writeItems "" true (v :: vs)).toList.length < fuel) :
    items depth reversed ((writeItems "" true (v :: vs)).toList ++ ']' :: rest) fuel =
      some (.arr (reversed.reverse ++ v :: vs), rest) := by
  induction vs generalizing v reversed fuel with
  | nil =>
    obtain ⟨fuel, rfl⟩ : ∃ k, fuel = k + 1 := ⟨fuel - 1, by omega⟩
    rw [toList_items, List.length_append] at hfuel
    have hfirst := hv (']' :: rest) fuel (endsNumber_cons (by simp)) (by omega)
    have htext : (writeItems "" true [v]).toList = (text v).toList := by
      rw [toList_items, writeItems, String.toList_empty, List.append_nil]
    rw [htext, items_bracket hfirst, List.reverse_cons]
  | cons w vs ih =>
    obtain ⟨hw, hvs⟩ := List.forall_mem_cons.mp hvs
    obtain ⟨fuel, rfl⟩ : ∃ k, fuel = k + 1 := ⟨fuel - 1, by omega⟩
    rw [toList_items, toList_moreItems, List.length_append, List.length_cons] at hfuel
    have hfirst := hv (',' :: ((writeItems "" true (w :: vs)).toList ++ ']' :: rest)) fuel
      (endsNumber_cons (by simp)) (by omega)
    have htext : (writeItems "" true (v :: w :: vs)).toList ++ ']' :: rest =
        (text v).toList ++ ',' :: ((writeItems "" true (w :: vs)).toList ++ ']' :: rest) := by
      rw [toList_items, toList_moreItems, List.append_assoc, List.cons_append]
    calc items depth reversed ((writeItems "" true (v :: w :: vs)).toList ++ ']' :: rest)
          (fuel + 1)
        = items depth (v :: reversed) ((writeItems "" true (w :: vs)).toList ++ ']' :: rest)
            fuel := by rw [htext, items_comma hfirst]
      _ = some (.arr ((v :: reversed).reverse ++ w :: vs), rest) :=
          ih hw hvs (v :: reversed) (by omega)
      _ = some (.arr (reversed.reverse ++ v :: w :: vs), rest) := by
          rw [List.reverse_cons, List.append_assoc, List.singleton_append]

/-- The members of an object are read back, behind those that have been read already. -/
theorem members_written {name : String} {v : Json} {ms : List (String × Json)}
    (hv : ReadBack depth v) (hms : ∀ m ∈ ms, ReadBack depth m.2)
    (reversed : List (String × Json)) (rest : List Char) {fuel : Nat}
    (hfuel : (writeMembers "" true ((name, v) :: ms)).toList.length < fuel) :
    members depth reversed ((writeMembers "" true ((name, v) :: ms)).toList ++ '\x7d' :: rest)
      fuel = some (.obj (reversed.reverse ++ (name, v) :: ms), rest) := by
  induction ms generalizing name v reversed fuel with
  | nil =>
    obtain ⟨fuel, rfl⟩ : ∃ k, fuel = k + 1 := ⟨fuel - 1, by omega⟩
    rw [toList_members, List.length_append, List.length_cons, List.length_append] at hfuel
    have hfirst := hv ('\x7d' :: rest) fuel (endsNumber_cons (by simp)) (by omega)
    have htext : (writeMembers "" true [(name, v)]).toList ++ '\x7d' :: rest =
        (stringText name).toList ++ ':' :: ((text v).toList ++ '\x7d' :: rest) := by
      rw [toList_members, writeMembers, String.toList_empty, List.append_nil, List.append_assoc,
        List.cons_append]
    rw [htext, members_brace hfirst, List.reverse_cons]
  | cons m ms ih =>
    obtain ⟨other, w⟩ := m
    obtain ⟨hm, hms⟩ : ReadBack depth w ∧ ∀ m ∈ ms, ReadBack depth m.2 :=
      List.forall_mem_cons.mp hms
    obtain ⟨fuel, rfl⟩ : ∃ k, fuel = k + 1 := ⟨fuel - 1, by omega⟩
    rw [toList_members, toList_moreMembers, List.length_append, List.length_cons,
      List.length_append, List.length_cons] at hfuel
    have hfirst := hv
      (',' :: ((writeMembers "" true ((other, w) :: ms)).toList ++ '\x7d' :: rest)) fuel
      (endsNumber_cons (by simp)) (by omega)
    have htext : (writeMembers "" true ((name, v) :: (other, w) :: ms)).toList ++ '\x7d' :: rest =
        (stringText name).toList ++ ':' :: ((text v).toList ++
          ',' :: ((writeMembers "" true ((other, w) :: ms)).toList ++ '\x7d' :: rest)) := by
      rw [toList_members, toList_moreMembers, List.append_assoc, List.cons_append,
        List.append_assoc, List.cons_append]
    calc members depth reversed ((writeMembers "" true ((name, v) :: (other, w) :: ms)).toList ++
          '\x7d' :: rest) (fuel + 1)
        = members depth ((name, v) :: reversed)
            ((writeMembers "" true ((other, w) :: ms)).toList ++ '\x7d' :: rest) fuel := by
          rw [htext, members_comma hfirst]
      _ = some (.obj (((name, v) :: reversed).reverse ++ (other, w) :: ms), rest) :=
          ih hm hms ((name, v) :: reversed) (by omega)
      _ = some (.obj (reversed.reverse ++ (name, v) :: (other, w) :: ms), rest) := by
          rw [List.reverse_cons, List.append_assoc, List.singleton_append]

theorem readBack_arr {vs : List Json} (hvs : ∀ v ∈ vs, ReadBack depth v) :
    ReadBack (depth + 1) (.arr vs) := by
  intro rest fuel _ hfuel
  rw [toList_arr, List.length_cons, List.length_append, List.length_singleton] at hfuel
  obtain ⟨fuel, rfl⟩ : ∃ k, fuel = k + 1 := ⟨fuel - 1, by omega⟩
  rw [toList_arr, List.cons_append, List.append_assoc, List.singleton_append]
  cases vs with
  | nil =>
    rw [writeItems, String.toList_empty, List.nil_append]
    rfl
  | cons v vs =>
    obtain ⟨hv, hvs⟩ := List.forall_mem_cons.mp hvs
    exact value_of_items (items_written hv hvs [] rest (by omega))

theorem readBack_obj {ms : List (String × Json)} (hms : ∀ m ∈ ms, ReadBack depth m.2) :
    ReadBack (depth + 1) (.obj ms) := by
  intro rest fuel _ hfuel
  rw [toList_obj, List.length_cons, List.length_append, List.length_singleton] at hfuel
  obtain ⟨fuel, rfl⟩ : ∃ k, fuel = k + 1 := ⟨fuel - 1, by omega⟩
  have hfuel : (writeMembers "" true ms).toList.length < fuel := by omega
  rw [toList_obj, List.cons_append, List.append_assoc, List.singleton_append]
  cases ms with
  | nil =>
    rw [writeMembers, String.toList_empty, List.nil_append]
    rfl
  | cons m ms =>
    obtain ⟨name, v⟩ := m
    obtain ⟨hv, hms⟩ : ReadBack depth v ∧ ∀ m ∈ ms, ReadBack depth m.2 :=
      List.forall_mem_cons.mp hms
    have hmembers := members_written hv hms [] rest hfuel
    have hquote : (writeMembers "" true ((name, v) :: ms)).toList =
        '"' :: (writeMembers "" true ((name, v) :: ms)).toList.tail := by
      rw [toList_members, toList_stringText, List.cons_append, List.tail_cons]
    rw [hquote, List.cons_append] at hmembers ⊢
    exact hmembers

/-- What is written for a plain value is read as that value. -/
theorem readBack_of_plain {v : Json} (h : Plain depth v) : ReadBack depth v := by
  induction h with
  | null =>
    intro rest fuel _ hfuel
    cases fuel with
    | zero => cases hfuel
    | succ fuel => rfl
  | bool _ b =>
    intro rest fuel _ hfuel
    cases fuel with
    | zero => cases b <;> cases hfuel
    | succ fuel => cases b <;> rfl
  | num hwhole => exact readBack_num hwhole
  | str _ s => exact readBack_str s
  | arr _ ih => exact readBack_arr ih
  | obj _ ih => exact readBack_obj ih

theorem parse_text {v : Json} (h : Plain depth v) : parse depth v.text.toList = some v := by
  have hread := readBack_of_plain h [] (2 * v.text.toList.length + 2)
    (fun c hc => absurd hc (by simp)) (by omega)
  rw [List.append_nil] at hread
  rw [parse, hread]
  rfl

end reading

end Comet.Json
