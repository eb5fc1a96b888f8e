import Comet.Assembly.Constant
import Comet.Assembly.Statement
import Comet.Proofs.Text.Encoding
import Comet.Proofs.Text.Quotes

namespace Comet

namespace Text

section columns

variable {cs ds : List Char}

/-- The text is empty or begins with white space. -/
def StartsBlank (cs : List Char) : Prop := ∀ c ∈ cs.head?, isBlank c = true

theorem trimStart_append (hblank : ∀ c ∈ cs, isBlank c = true)
    (hvisible : ∀ c ∈ ds.head?, isBlank c = false) : trimStart (cs ++ ds) = ds := by
  rw [trimStart, List.dropWhile_append_of_pos hblank]
  cases ds with
  | nil => rfl
  | cons d ds =>
    have hd : ¬ isBlank d = true := Bool.eq_false_iff.mp (hvisible d rfl)
    exact List.dropWhile_cons_of_neg hd

theorem splitWord_word (hword : ∀ c ∈ cs, isBlank c = false) (hbehind : StartsBlank ds) :
    splitWord (cs ++ ds) = (cs, ds) := by
  have hvisible : ∀ c ∈ cs, (!isBlank c) = true := fun c hc => by rw [hword c hc]; rfl
  rw [splitWord, List.takeWhile_append_of_pos hvisible, List.dropWhile_append_of_pos hvisible]
  cases ds with
  | nil => simp
  | cons d ds =>
    have hd : isBlank d = true := hbehind d rfl
    simp [hd]

theorem StartsBlank.trimEnd (h : StartsBlank cs) : StartsBlank (trimEnd cs) := by
  obtain ⟨rest, hrest⟩ := trimEnd_prefix cs
  cases hkept : Text.trimEnd cs with
  | nil => exact nofun
  | cons c kept =>
    rw [hkept] at hrest
    rw [← hrest] at h
    exact h

theorem trimEnd_append_of_trimmed (h : trimEnd cs = cs) :
    trimEnd (cs ++ ds) = cs ++ trimEnd ds := by
  by_cases hds : trimEnd ds = []
  · rw [trimEnd_append_of_blank (trimEnd_eq_nil_iff.mp hds), h, hds, List.append_nil]
  · exact trimEnd_append_of_ne_nil hds

/-- White space at the end of a text would stand outside its quotes. -/
theorem Closed.trimEnd_eq (h : Closed isBlank cs) : trimEnd cs = cs := by
  rcases List.eq_nil_or_concat cs with rfl | ⟨init, c, rfl⟩
  · rfl
  · rw [List.concat_eq_append] at h ⊢
    have hc : isBlank c = false := by
      rcases h.last with rfl | hc
      · decide
      · exact hc
    have hlast : trimEnd [c] = [c] := trimEnd_of_visible (List.forall_mem_singleton.mpr hc)
    rw [trimEnd_append_of_ne_nil (by rw [hlast]; exact List.cons_ne_nil _ _), hlast]

theorem Closed.head_visible (h : Closed isBlank cs) : ∀ c ∈ cs.head?, isBlank c = false := by
  cases cs with
  | nil => exact nofun
  | cons c cs =>
    rintro _ ⟨⟩
    exact (clear_cons_iff.mp h.clear).1 rfl

end columns

end Text

namespace Statement

open Text

/-- The text may stand as a label or as an operation code. -/
structure IsWord (cs : List Char) : Prop where
  nonempty : cs ≠ []
  visible : ∀ c ∈ cs, isBlank c = false
  unquoted : '\'' ∉ cs
  uncommented : ';' ∉ cs

/-- Outside quotes, the character does not belong to an operand. -/
def endsOperand (c : Char) : Bool := isBlank c || c == ',' || c == ';'

/-- The statement can be written on a line. A single empty operand would be none at all. -/
structure Printable (s : Statement) : Prop where
  label : ∀ l ∈ s.label, IsWord l.toList
  opcode : IsWord s.opcode.toList
  operands : ∀ o ∈ s.operands, Closed endsOperand o.toList
  field : s.operands ≠ [""]

/-- White space between two columns. -/
structure Gap where
  text : List Char
  nonempty : text ≠ []
  blank : ∀ c ∈ text, isBlank c = true

/-- What may follow a statement on its line. Without operands a remark would be taken for them. -/
inductive Trailer (s : Statement) : List Char → Prop
  | none : Trailer s []
  | comment (text : List Char) : Trailer s (';' :: text)
  | remark (gap : Gap) (text : List Char) (hoperands : s.operands ≠ []) :
      Trailer s (gap.text ++ text)

def labelText (s : Statement) : List Char := s.label.elim [] String.toList

def operandText (s : Statement) : List Char := [','].intercalate (s.operands.map String.toList)

/-- The line on which the columns have these gaps between them. -/
def print (s : Statement) (first second : Gap) : List Char :=
  s.labelText ++ first.text ++ s.opcode.toList ++ (second.text ++ s.operandText)

section printed

variable {s : Statement} {cs rest : List Char}

theorem IsWord.of_isLabel (h : Assembly.isLabel cs = true) : IsWord cs := by
  have hname : ∀ c ∈ cs, c.isUpper = true ∨ c.isDigit = true := by
    unfold Assembly.isLabel at h
    split at h
    · cases h
    · simp only [Bool.and_eq_true, List.all_eq_true, Bool.or_eq_true] at h
      obtain ⟨⟨⟨hfirst, -⟩, hrest⟩, -⟩ := h
      exact List.forall_mem_cons.mpr ⟨Or.inl hfirst, hrest⟩
  refine ⟨?_, ?_, fun hquote => ?_, fun hcomment => ?_⟩
  · rintro rfl
    cases h
  · intro c hc
    rcases hname c hc with hupper | hdigit
    · exact isBlank_of_isUpper hupper
    · exact isBlank_of_isDigit hdigit
  · exact absurd (hname _ hquote) (by decide)
  · exact absurd (hname _ hcomment) (by decide)

theorem IsWord.closed (h : IsWord cs) : Closed (· == ';') cs :=
  .of_plain h.unquoted fun _ hc => beq_false_of_ne fun heq => h.uncommented (heq ▸ hc)

theorem Gap.closed (g : Gap) : Closed (· == ';') g.text := by
  have hnot {c : Char} (hc : isBlank c = false) : c ∉ g.text := fun hmem =>
    Bool.false_ne_true (hc.symm.trans (g.blank c hmem))
  exact .of_plain (hnot (by decide)) fun c hc =>
    beq_false_of_ne fun heq => hnot (by decide) (heq ▸ hc)

/-- One blank character is enough of a gap. -/
def Gap.ofChar (c : Char) (h : isBlank c = true) : Gap :=
  ⟨[c], List.cons_ne_nil _ _, List.forall_mem_singleton.mpr h⟩

theorem Gap.exists_cons (g : Gap) : ∃ c cs, g.text = c :: cs ∧ isBlank c = true := by
  obtain ⟨c, cs, hcs⟩ := List.exists_cons_of_ne_nil g.nonempty
  exact ⟨c, cs, hcs, g.blank c (hcs ▸ List.mem_cons_self)⟩

theorem Gap.startsBlank (g : Gap) (cs : List Char) : StartsBlank (g.text ++ cs) := by
  obtain ⟨c, rest, hrest, hc⟩ := g.exists_cons
  rw [hrest]
  rintro _ ⟨⟩
  exact hc

/-- A comma between the operands ends none of the scans of the line. -/
theorem Printable.operandText_closed (h : s.Printable) {stop : Char → Bool}
    (hstop : ∀ c, stop c = true → endsOperand c = true) (hcomma : stop ',' = false) :
    Closed stop s.operandText := by
  have hseparator : Closed stop [','] :=
    .of_plain (by decide) (List.forall_mem_singleton.mpr hcomma)
  refine hseparator.intercalate (List.forall_mem_map.mpr fun o ho => ?_)
  exact (h.operands o ho).mono hstop

theorem Printable.operandText_visible (h : s.Printable) : Closed isBlank s.operandText :=
  h.operandText_closed (fun c hc => by simp [endsOperand, hc]) (by decide)

theorem Printable.labelText_closed (h : s.Printable) : Closed (· == ';') s.labelText := by
  rw [labelText]
  cases hlabel : s.label with
  | none => exact .nil
  | some l => exact (h.label l hlabel).closed

theorem Printable.closed (h : s.Printable) (first second : Gap) :
    Closed (· == ';') (s.print first second) := by
  have hfield : Closed (· == ';') s.operandText :=
    h.operandText_closed (fun c hc => by simp [endsOperand, hc]) (by decide)
  exact ((h.labelText_closed.append first.closed).append h.opcode.closed).append
    (second.closed.append hfield)

theorem Printable.operandText_eq_nil (h : s.Printable) (hnil : s.operandText = []) :
    s.operands = [] := by
  have hfield := h.field
  rw [operandText] at hnil
  cases hoperands : s.operands with
  | nil => rfl
  | cons o rest =>
    rw [hoperands] at hnil hfield
    cases rest with
    | nil =>
      rw [List.map_cons, List.map_nil, List.intercalate_singleton, String.toList_eq_nil_iff] at hnil
      exact absurd (congrArg (fun o => [o]) hnil) hfield
    | cons next rest =>
      simp [List.intercalate_cons_cons] at hnil

/-- Of what follows the statement at most a remark is left without the comment. -/
theorem Printable.stripComment_print (h : s.Printable) (first second : Gap)
    (ht : s.Trailer rest) : ∃ tail,
      stripComment (s.print first second ++ rest) = s.print first second ++ tail ∧
        StartsBlank tail ∧ (s.operands = [] → tail = []) := by
  refine ⟨untilUnquoted (· == ';') false rest, (h.closed first second).untilUnquoted_append, ?_⟩
  cases ht with
  | none => exact ⟨nofun, fun _ => rfl⟩
  | comment text => exact ⟨nofun, fun _ => rfl⟩
  | remark gap text hoperands =>
    rw [gap.closed.untilUnquoted_append]
    exact ⟨gap.startsBlank _, fun hnone => absurd hnone hoperands⟩

/-- Behind the operation code there is nothing, or a gap with the operands behind it. -/
theorem Printable.trimEnd_print (h : s.Printable) (first second : Gap) {tail : List Char}
    (htail : StartsBlank tail) (hnone : s.operands = [] → tail = []) : ∃ more remark,
      trimEnd (s.print first second ++ tail) =
        s.labelText ++ first.text ++ s.opcode.toList ++ more ∧
      StartsBlank more ∧ trimStart more = s.operandText ++ remark ∧ StartsBlank remark := by
  have hopcode : trimEnd s.opcode.toList = s.opcode.toList := trimEnd_of_visible h.opcode.visible
  have hlead : trimEnd (s.labelText ++ first.text ++ s.opcode.toList) =
      s.labelText ++ first.text ++ s.opcode.toList := by
    rw [trimEnd_append_of_ne_nil (by rw [hopcode]; exact h.opcode.nonempty), hopcode]
  have hfield := h.operandText_visible
  by_cases hnil : s.operandText = []
  · refine ⟨[], [], ?_, nofun, by rw [hnil]; rfl, nofun⟩
    rw [hnone (h.operandText_eq_nil hnil), print, hnil, List.append_nil, List.append_nil,
      trimEnd_append_of_blank second.blank, hlead, List.append_nil]
  · have hprinted : trimEnd (s.print first second) = s.print first second := by
      rw [print, ← List.append_assoc,
        trimEnd_append_of_ne_nil (by rwa [hfield.trimEnd_eq]), hfield.trimEnd_eq]
    have hvisible : ∀ c ∈ (s.operandText ++ trimEnd tail).head?, isBlank c = false := by
      obtain ⟨c, cs, hcs⟩ := List.exists_cons_of_ne_nil hnil
      have hhead := hfield.head_visible
      rw [hcs] at hhead ⊢
      exact hhead
    refine ⟨second.text ++ (s.operandText ++ trimEnd tail), trimEnd tail, ?_, second.startsBlank _,
      trimStart_append second.blank hvisible, htail.trimEnd⟩
    rw [trimEnd_append_of_trimmed hprinted, print]
    simp only [List.append_assoc]

theorem Printable.splitLabel_print (h : s.Printable) (first : Gap) (more : List Char) :
    splitLabel (s.labelText ++ first.text ++ s.opcode.toList ++ more) =
      (s.label.map String.toList, s.opcode.toList ++ more) := by
  have hopcode : ∀ c ∈ (s.opcode.toList ++ more).head?, isBlank c = false := by
    obtain ⟨c, cs, hcs⟩ := List.exists_cons_of_ne_nil h.opcode.nonempty
    have hc := h.opcode.visible c (hcs ▸ List.mem_cons_self)
    rw [hcs]
    rintro _ ⟨⟩
    exact hc
  have hgap : trimStart (first.text ++ (s.opcode.toList ++ more)) = s.opcode.toList ++ more :=
    trimStart_append first.blank hopcode
  rw [List.append_assoc, List.append_assoc, labelText]
  cases hlabel : s.label with
  | none =>
    obtain ⟨c, cs, hcs, hc⟩ := first.exists_cons
    rw [hcs] at hgap
    simp only [Option.elim_none, List.nil_append, hcs, List.cons_append, splitLabel, hc, if_true]
    rw [← List.cons_append, hgap]
    rfl
  | some l =>
    have hl := h.label l hlabel
    obtain ⟨c, cs, hcs⟩ := List.exists_cons_of_ne_nil hl.nonempty
    have hc := hl.visible c (hcs ▸ List.mem_cons_self)
    have hword := splitWord_word hl.visible (first.startsBlank (s.opcode.toList ++ more))
    rw [hcs] at hword
    simp only [Option.elim_some, hcs, List.cons_append, splitLabel, hc, Bool.false_eq_true,
      if_false]
    rw [← List.cons_append, hword, hgap, Option.map_some, hcs]

/-- The remark behind the operands is cut off. -/
theorem Printable.operandField_print (h : s.Printable) (hrest : StartsBlank rest) :
    operandField (s.operandText ++ rest) = .ok s.operandText := by
  have hfield := h.operandText_visible
  have hremark : untilUnquoted isBlank false rest = [] := by
    cases rest with
    | nil => rfl
    | cons c rest =>
      have hc : isBlank c = true := hrest c rfl
      have hquote : c ≠ '\'' := by
        rintro rfl
        exact absurd hc (by decide)
      rw [untilUnquoted, if_neg hquote, hc]
      rfl
  rw [operandField, hfield.untilUnquoted_append, hremark, List.append_nil]
  simp only [hfield.paired, Bool.false_eq_true, if_false]

theorem Printable.splitOperands_print (h : s.Printable) :
    splitOperands s.operandText = s.operands.map String.toList := by
  rw [splitOperands]
  by_cases hempty : s.operandText.isEmpty = true
  · rw [if_pos hempty, h.operandText_eq_nil (List.isEmpty_iff.mp hempty), List.map_nil]
  · rw [if_neg hempty]
    refine splitUnquoted_intercalate (by decide) (List.forall_mem_map.mpr fun o ho => ?_) ?_
    · exact (h.operands o ho).mono fun c hc => by simp [endsOperand, beq_iff_eq.mp hc]
    · intro hnone
      rw [operandText, hnone] at hempty
      exact hempty rfl

theorem Printable.ofLine_print (h : s.Printable) (first second : Gap) (ht : s.Trailer rest) :
    ofLine (s.print first second ++ rest) = .ok (some s) := by
  obtain ⟨tail, hstrip, htail, hnone⟩ := h.stripComment_print first second ht
  obtain ⟨more, remark, htext, hmore, hfield, hremark⟩ := h.trimEnd_print first second htail hnone
  have hne : s.opcode.toList ++ more ≠ [] := List.append_ne_nil_of_left_ne_nil h.opcode.nonempty _
  have hsome : (trimEnd (stripComment (s.print first second ++ rest))).isEmpty = false := by
    rw [hstrip, htext, List.append_assoc, List.isEmpty_eq_false_iff]
    exact List.append_ne_nil_of_right_ne_nil _ hne
  have hrest : (s.opcode.toList ++ more).isEmpty = false := List.isEmpty_eq_false_iff.mpr hne
  rw [ofLine]
  simp only [hsome, Bool.false_eq_true, if_false]
  rw [hstrip, htext, h.splitLabel_print]
  simp only [hrest, Bool.false_eq_true, if_false, splitWord_word h.opcode.visible hmore, hfield,
    h.operandField_print hremark, h.splitOperands_print]
  simp [Option.map_map, Function.comp_def]

/-- A line with nothing but a comment on it has no statement. -/
theorem ofLine_of_isBlankLine {line : List Char} (h : isBlankLine line = true) :
    ofLine line = .ok none := by
  have hnil : trimEnd (stripComment line) = [] :=
    trimEnd_eq_nil_iff.mpr (List.all_eq_true.mp h)
  rw [ofLine]
  simp only [hnil, List.isEmpty_nil, if_true]

end printed

/-- From the line on which it is written a statement is read as it was, whatever gaps there are
between its columns and whatever follows it. Such a line is not blank, and another statement is
never written on the same line. -/
theorem written_statement_read_back {s : Statement} (h : s.Printable) (first second : Gap)
    {rest : List Char} (ht : s.Trailer rest) :
    ofLine (s.print first second ++ rest) = .ok (some s) ∧
    isBlankLine (s.print first second ++ rest) = false ∧
    ∀ (s' : Statement) (first' second' : Gap) (rest' : List Char), s'.Printable →
      s'.Trailer rest' → s'.print first' second' ++ rest' = s.print first second ++ rest →
      s' = s := by
  have hread := h.ofLine_print first second ht
  refine ⟨hread, ?_, ?_⟩
  · rw [Bool.eq_false_iff]
    intro hblank
    rw [ofLine_of_isBlankLine hblank] at hread
    cases hread
  · intro s' first' second' rest' h' ht' hsame
    have hread' := h'.ofLine_print first' second' ht'
    rw [hsame, hread] at hread'
    exact (Option.some.inj (Except.ok.inj hread')).symm

/-- A string with a separator of every kind in it, nothing, and a number. -/
def separators : Statement := ⟨some "MSG", "DC", ["'a; b''c,'", "", "10"]⟩

theorem printable_separators : separators.Printable where
  label := by
    rintro l ⟨⟩
    exact .of_isLabel (by decide)
  opcode := .of_isLabel (by decide)
  operands := by
    have hstring : Closed endsOperand "'a; b''c,'".toList :=
      closed_quote (by decide) ['a', ';', ' ', 'b', '\'', 'c', ',']
    have hnumber : Closed endsOperand "10".toList :=
      .of_plain (by decide)
        (List.forall_mem_cons.mpr ⟨by decide, List.forall_mem_singleton.mpr (by decide)⟩)
    simp only [separators, List.forall_mem_cons]
    exact ⟨hstring, .nil, hnumber, List.forall_mem_nil _⟩
  field := by decide

/-- Neither the separators in the string nor those in the remark make a difference. -/
theorem separators_read_back :
    ofLine "MSG\tDC\u3000'a; b''c,',,10 it's; here '".toList = .ok (some separators) := by
  let first : Gap := .ofChar '\t' (by decide)
  let second : Gap := .ofChar '\u3000' (by decide)
  have hremark : separators.Trailer ([' '] ++ "it's; here '".toList) :=
    .remark (.ofChar ' ' (by decide)) _ (by decide)
  have hline : separators.print first second ++ ([' '] ++ "it's; here '".toList) =
      "MSG\tDC\u3000'a; b''c,',,10 it's; here '".toList := by decide
  obtain ⟨hread, -, -⟩ :=
    written_statement_read_back printable_separators first second hremark
  rwa [hline] at hread

end Statement

end Comet
