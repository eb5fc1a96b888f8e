import Comet.Text.Quoted
import Mathlib.Data.List.Basic

namespace Comet.Text

/-- `stop` holds of no character that stands outside quotes; `quoted` says whether the text starts
inside them. -/
def Clear (stop : Char → Bool) (quoted : Bool) (cs : List Char) : Prop :=
  ∀ before c behind, cs = before ++ c :: behind → endsQuoted before = quoted → stop c = false

/-- The quotes come in pairs, and `stop` holds of nothing outside them. -/
structure Closed (stop : Char → Bool) (cs : List Char) : Prop where
  paired : endsQuoted cs = false
  clear : Clear stop false cs

section quotes

variable {stop : Char → Bool} {quoted : Bool} {c : Char} {cs ds : List Char}

theorem endsQuoted_cons : endsQuoted (c :: cs) = (endsQuoted cs ^^ c == '\'') := by
  unfold endsQuoted
  rw [List.count_cons]
  cases c == '\'' with
  | false => simp
  | true => rcases Nat.mod_two_eq_zero_or_one (cs.count '\'') with h | h <;> simp [Nat.add_mod, h]

/-- A quote changes the state that the rest is scanned in. -/
theorem xor_endsQuoted_cons :
    ((quoted ^^ c == '\'') ^^ endsQuoted cs) = (quoted ^^ endsQuoted (c :: cs)) := by
  rw [endsQuoted_cons, Bool.xor_comm (endsQuoted cs), Bool.xor_assoc]

theorem endsQuoted_append : endsQuoted (cs ++ ds) = (endsQuoted cs ^^ endsQuoted ds) := by
  induction cs with
  | nil => simp [endsQuoted]
  | cons c cs ih =>
    rw [List.cons_append, endsQuoted_cons, endsQuoted_cons, ih]
    cases c == '\'' <;> cases endsQuoted cs <;> cases endsQuoted ds <;> rfl

theorem clear_nil : Clear stop quoted [] := by
  intro before c behind h
  simp at h

/-- The state of the quotes behind a character is the one that the rest starts in. -/
theorem clear_cons_iff : Clear stop quoted (c :: cs) ↔
    (quoted = false → stop c = false) ∧ Clear stop (quoted ^^ c == '\'') cs := by
  constructor
  · intro h
    refine ⟨fun hq => h [] c cs rfl (by rw [hq]; rfl), ?_⟩
    rintro before d behind rfl hbefore
    refine h (c :: before) d behind rfl ?_
    rw [endsQuoted_cons, hbefore]
    cases quoted <;> cases c == '\'' <;> rfl
  · rintro ⟨hc, hcs⟩ before d behind hsplit hbefore
    cases before with
    | nil =>
      obtain ⟨rfl, rfl⟩ := List.cons.inj hsplit
      exact hc hbefore.symm
    | cons e before =>
      obtain ⟨rfl, hrest⟩ := List.cons.inj hsplit
      refine hcs before d behind hrest ?_
      rw [endsQuoted_cons] at hbefore
      rw [← hbefore]
      cases endsQuoted before <;> cases c == '\'' <;> rfl

theorem clear_append_iff : Clear stop quoted (cs ++ ds) ↔
    Clear stop quoted cs ∧ Clear stop (quoted ^^ endsQuoted cs) ds := by
  induction cs generalizing quoted with
  | nil => simp [clear_nil, endsQuoted]
  | cons c cs ih =>
    rw [List.cons_append, clear_cons_iff, clear_cons_iff, ih, xor_endsQuoted_cons, and_assoc]

theorem Clear.mono {stop' : Char → Bool} (h : Clear stop quoted cs)
    (hstop : ∀ c, stop' c = true → stop c = true) : Clear stop' quoted cs := by
  intro before c behind hsplit hbefore
  rw [Bool.eq_false_iff]
  exact fun hc => Bool.false_ne_true ((h before c behind hsplit hbefore).symm.trans (hstop c hc))

end quotes

namespace Closed

variable {stop : Char → Bool} {c : Char} {cs ds : List Char}

theorem nil : Closed stop [] := ⟨rfl, clear_nil⟩

theorem append (hcs : Closed stop cs) (hds : Closed stop ds) : Closed stop (cs ++ ds) := by
  refine ⟨by rw [endsQuoted_append, hcs.paired, hds.paired]; rfl, ?_⟩
  rw [clear_append_iff, hcs.paired]
  exact ⟨hcs.clear, hds.clear⟩

theorem mono {stop' : Char → Bool} (h : Closed stop cs)
    (hstop : ∀ c, stop' c = true → stop c = true) : Closed stop' cs :=
  ⟨h.paired, h.clear.mono hstop⟩

/-- A text without quotes is closed if there is nothing in it to stop at. -/
theorem of_plain (hquote : '\'' ∉ cs) (hstop : ∀ c ∈ cs, stop c = false) : Closed stop cs := by
  refine ⟨by rw [endsQuoted, List.count_eq_zero_of_not_mem hquote]; rfl, ?_⟩
  rintro before c behind rfl -
  exact hstop c (by simp)

theorem intercalate {separator : List Char} {parts : List (List Char)}
    (hseparator : Closed stop separator) (hparts : ∀ part ∈ parts, Closed stop part) :
    Closed stop (separator.intercalate parts) := by
  induction parts with
  | nil => exact nil
  | cons part parts ih =>
    obtain ⟨hpart, hrest⟩ := List.forall_mem_cons.mp hparts
    cases parts with
    | nil => rwa [List.intercalate_singleton]
    | cons next parts =>
      rw [List.intercalate_cons_cons]
      exact (hpart.append hseparator).append (ih hrest)

/-- What ends a closed text stands outside quotes, or is the last of them. -/
theorem last (h : Closed stop (cs ++ [c])) : c = '\'' ∨ stop c = false := by
  refine or_iff_not_imp_left.mpr fun hc => h.clear cs c [] rfl ?_
  have hpaired := h.paired
  rw [endsQuoted_append, endsQuoted_cons, beq_false_of_ne hc] at hpaired
  simpa [endsQuoted] using hpaired

end Closed

section scan

variable {stop : Char → Bool} {quoted : Bool} {separator : Char} {cs ds : List Char}

theorem not_stopped {c : Char} (hc : quoted = false → stop c = false) :
    ¬ (!quoted && stop c) = true := by
  cases quoted with
  | true => simp
  | false => simp [hc rfl]

theorem untilUnquoted_append (h : Clear stop quoted cs) :
    untilUnquoted stop quoted (cs ++ ds) =
      cs ++ untilUnquoted stop (quoted ^^ endsQuoted cs) ds := by
  -- along the text, from any state: each character leaves the state that the next is scanned in
  induction cs generalizing quoted with
  | nil => simp [endsQuoted]
  | cons c cs ih =>
    obtain ⟨hc, hcs⟩ := clear_cons_iff.mp h
    rw [List.cons_append, untilUnquoted, ← xor_endsQuoted_cons, List.cons_append, ← ih hcs]
    by_cases hquote : c = '\''
    · rw [if_pos hquote, beq_iff_eq.mpr hquote, Bool.xor_true]
    · rw [if_neg hquote, if_neg (not_stopped hc), beq_false_of_ne hquote, Bool.xor_false]

/-- A closed text is passed over. -/
theorem Closed.untilUnquoted_append (h : Closed stop cs) :
    untilUnquoted stop false (cs ++ ds) = cs ++ untilUnquoted stop false ds := by
  rw [Text.untilUnquoted_append h.clear, h.paired]
  rfl

theorem foldr_consFirst (cs part : List Char) (parts : List (List Char)) :
    cs.foldr consFirst (part :: parts) = (cs ++ part) :: parts := by
  induction cs with
  | nil => rfl
  | cons c cs ih => rw [List.foldr_cons, ih, consFirst, List.cons_append]

theorem splitUnquoted_append (h : Clear (· == separator) quoted cs) :
    splitUnquoted separator quoted (cs ++ ds) =
      cs.foldr consFirst (splitUnquoted separator (quoted ^^ endsQuoted cs) ds) := by
  induction cs generalizing quoted with
  | nil => simp [endsQuoted]
  | cons c cs ih =>
    obtain ⟨hc, hcs⟩ := clear_cons_iff.mp h
    rw [List.cons_append, splitUnquoted, ← xor_endsQuoted_cons, List.foldr_cons, ← ih hcs]
    by_cases hquote : c = '\''
    · rw [if_pos hquote, beq_iff_eq.mpr hquote, Bool.xor_true]
    · have hpassed : ¬ (!quoted && c == separator) = true := not_stopped hc
      rw [if_neg hquote, if_neg hpassed, beq_false_of_ne hquote, Bool.xor_false]

theorem Closed.splitUnquoted_append (h : Closed (· == separator) cs) :
    splitUnquoted separator false (cs ++ ds) =
      cs.foldr consFirst (splitUnquoted separator false ds) := by
  rw [Text.splitUnquoted_append h.clear, h.paired]
  rfl

/-- Closed texts with separators between them are split at just these. -/
theorem splitUnquoted_intercalate (hseparator : separator ≠ '\'') {parts : List (List Char)}
    (hparts : ∀ part ∈ parts, Closed (· == separator) part) (hne : parts ≠ []) :
    splitUnquoted separator false ([separator].intercalate parts) = parts := by
  have hcut (ds : List Char) : splitUnquoted separator false (separator :: ds) =
      [] :: splitUnquoted separator false ds := by
    rw [splitUnquoted, if_neg hseparator, if_pos (by simp)]
  induction parts with
  | nil => exact absurd rfl hne
  | cons part parts ih =>
    obtain ⟨hpart, hrest⟩ := List.forall_mem_cons.mp hparts
    cases parts with
    | nil =>
      have halone : splitUnquoted separator false (part ++ []) = part.foldr consFirst [[]] :=
        hpart.splitUnquoted_append
      rw [foldr_consFirst, List.append_nil] at halone
      rw [List.intercalate_singleton, halone]
    | cons next parts =>
      calc splitUnquoted separator false ([separator].intercalate (part :: next :: parts))
          = splitUnquoted separator false
              (part ++ separator :: [separator].intercalate (next :: parts)) := by
            rw [List.intercalate_cons_cons, List.append_assoc, List.singleton_append]
        _ = part.foldr consFirst
              ([] :: splitUnquoted separator false ([separator].intercalate (next :: parts))) := by
            rw [hpart.splitUnquoted_append, hcut]
        _ = part.foldr consFirst ([] :: next :: parts) := by rw [ih hrest (List.cons_ne_nil _ _)]
        _ = part :: next :: parts := by rw [foldr_consFirst, List.append_nil]

end scan

section strings

variable {stop : Char → Bool} {t s : List Char}

theorem endsQuoted_doubleQuotes (s : List Char) : endsQuoted (doubleQuotes s) = false := by
  induction s with
  | nil => rfl
  | cons c s ih =>
    by_cases hc : c = '\''
    · rw [doubleQuotes, if_pos hc, endsQuoted_cons, endsQuoted_cons, ih]
      rfl
    · rw [doubleQuotes, if_neg hc, endsQuoted_cons, ih, beq_false_of_ne hc]
      rfl

/-- Inside quotes only the doubled quotes ever stand outside them. -/
theorem clear_doubleQuotes (hstop : stop '\'' = false) (s : List Char) :
    Clear stop true (doubleQuotes s) := by
  induction s with
  | nil => exact clear_nil
  | cons c s ih =>
    by_cases hc : c = '\''
    · rw [doubleQuotes, if_pos hc, clear_cons_iff, clear_cons_iff]
      exact ⟨nofun, fun _ => hstop, ih⟩
    · rw [doubleQuotes, if_neg hc, clear_cons_iff, beq_false_of_ne hc]
      exact ⟨nofun, ih⟩

theorem closed_quote (hstop : stop '\'' = false) (s : List Char) : Closed stop (quote s) := by
  constructor
  · rw [quote, endsQuoted_cons, endsQuoted_append, endsQuoted_doubleQuotes]
    rfl
  · rw [quote, clear_cons_iff, clear_append_iff, endsQuoted_doubleQuotes]
    exact ⟨fun _ => hstop, clear_doubleQuotes hstop s,
      clear_cons_iff.mpr ⟨fun _ => hstop, clear_nil⟩⟩

theorem unquoteRest_doubleQuotes (s : List Char) :
    unquoteRest (doubleQuotes s ++ ['\'']) = some s := by
  induction s with
  | nil => rfl
  | cons c s ih =>
    by_cases hc : c = '\''
    · rw [doubleQuotes, if_pos hc, List.cons_append, List.cons_append, unquoteRest, ih,
        Option.map_some, hc]
    · rw [doubleQuotes, if_neg hc, List.cons_append, unquoteRest, if_neg hc, ih, Option.map_some]
      · exact fun h => absurd h hc
      · exact fun _ h => absurd h hc

theorem eq_of_unquoteRest (h : unquoteRest t = some s) : t = doubleQuotes s ++ ['\''] := by
  fun_induction unquoteRest t generalizing s with
  | case1 => cases h
  | case2 =>
    obtain rfl := Option.some.inj h
    rfl
  | case3 cs ih =>
    obtain ⟨s', hs', rfl⟩ := Option.map_eq_some_iff.mp h
    rw [ih hs', doubleQuotes, if_pos rfl]
    rfl
  | case4 => cases h
  | case5 c cs _ _ hc ih =>
    obtain ⟨s', hs', rfl⟩ := Option.map_eq_some_iff.mp h
    rw [ih hs', doubleQuotes, if_neg hc]
    rfl

/-- A text is read as a string just when it is the string as it is written. -/
theorem unquote_eq_some_iff : unquote t = some s ↔ t = quote s := by
  constructor
  · intro h
    unfold unquote at h
    split at h
    · rw [eq_of_unquoteRest h, quote]
    · cases h
  · rintro rfl
    exact unquoteRest_doubleQuotes s

end strings

end Comet.Text
