import Comet.Proofs.Assembly.Printing
import Comet.Proofs.Assembly.Renumbering
import Mathlib.Order.Monotone.Basic

namespace Comet

namespace Text

variable {stop : Char → Bool} {quoted : Bool} {cs ds : List Char}

/-- A scan has stopped before the end of a text, or what is behind it is scanned as well. -/
theorem untilUnquoted_append_cases (stop : Char → Bool) (quoted : Bool) (cs : List Char) :
    (∀ ds, untilUnquoted stop quoted (cs ++ ds) = untilUnquoted stop quoted cs) ∨
      ∀ ds, untilUnquoted stop quoted (cs ++ ds) =
        cs ++ untilUnquoted stop (quoted ^^ endsQuoted cs) ds := by
  induction cs generalizing quoted with
  | nil => exact Or.inr fun ds => by simp [endsQuoted]
  | cons c cs ih =>
    simp only [List.cons_append, untilUnquoted, ← xor_endsQuoted_cons]
    by_cases hquote : c = '\''
    · simp only [if_pos hquote, beq_iff_eq.mpr hquote, Bool.xor_true]
      exact (ih (!quoted)).imp (fun h ds => by rw [h]) (fun h ds => by rw [h])
    · simp only [if_neg hquote, beq_false_of_ne hquote, Bool.xor_false]
      by_cases hstop : (!quoted && stop c) = true
      · exact Or.inl fun ds => by rw [if_pos hstop, if_pos hstop]
      · simp only [if_neg hstop]
        exact (ih quoted).imp (fun h ds => by rw [h]) (fun h ds => by rw [h])

theorem endsQuoted_of_not_mem (h : '\'' ∉ cs) : endsQuoted cs = false := by
  rw [endsQuoted, List.count_eq_zero_of_not_mem h]
  rfl

theorem quote_not_mem_of_blank (h : ∀ c ∈ cs, isBlank c = true) : '\'' ∉ cs :=
  fun hquote => absurd (h _ hquote) (by decide)

theorem trimStart_append_of_ne_nil (h : trimStart cs ≠ []) :
    trimStart (cs ++ ds) = trimStart cs ++ ds := by
  have hsome : (cs.dropWhile isBlank).isEmpty = false := List.isEmpty_eq_false_iff.mpr h
  rw [trimStart, List.dropWhile_append, hsome]
  rfl

theorem splitWord_append_of_ne_nil (h : (splitWord cs).2 ≠ []) :
    splitWord (cs ++ ds) = ((splitWord cs).1, (splitWord cs).2 ++ ds) := by
  have hbehind : StartsBlank ((splitWord cs).2 ++ ds) := by
    obtain ⟨c, rest, hrest⟩ := List.exists_cons_of_ne_nil h
    rw [hrest]
    rintro _ ⟨⟩
    have hc := List.head?_dropWhile_not (!isBlank ·) cs
    rw [show cs.dropWhile (!isBlank ·) = c :: rest from hrest] at hc
    simpa using hc
  have hword : ∀ c ∈ (splitWord cs).1, isBlank c = false := fun c hc => by
    simpa using List.all_eq_true.mp (List.all_takeWhile (p := (!isBlank ·)) (l := cs)) c hc
  rw [← splitWord_word hword hbehind, ← List.append_assoc, splitWord_append]

/-- What is dropped from the start has no quotes. -/
theorem endsQuoted_trimStart (cs : List Char) : endsQuoted (trimStart cs) = endsQuoted cs := by
  have hsplit : cs.takeWhile isBlank ++ trimStart cs = cs := List.takeWhile_append_dropWhile
  have hblank : '\'' ∉ cs.takeWhile isBlank :=
    quote_not_mem_of_blank (List.all_eq_true.mp List.all_takeWhile)
  rw [← congrArg endsQuoted hsplit, endsQuoted_append, endsQuoted_of_not_mem hblank,
    Bool.false_xor]

theorem endsQuoted_splitWord (h : '\'' ∉ (splitWord cs).1) :
    endsQuoted (splitWord cs).2 = endsQuoted cs := by
  rw [← congrArg endsQuoted (splitWord_append cs), endsQuoted_append, endsQuoted_of_not_mem h,
    Bool.false_xor]

end Text

namespace Statement

open Text

/-- The text, which has no comment behind it, is split into the columns of the statement. -/
inductive Columns (text : List Char) : Statement → Prop
  | intro {label : Option (List Char)} {rest field : List Char}
      (hlabel : splitLabel text = (label, rest)) (hrest : rest ≠ [])
      (hfield : operandField (trimStart (splitWord rest).2) = .ok field) :
      Columns text
        ⟨label.map .ofList, .ofList (splitWord rest).1, (splitOperands field).map .ofList⟩

theorem ofLine_eq_some_iff {line : List Char} {s : Statement} :
    ofLine line = .ok (some s) ↔ Columns (trimEnd (stripComment line)) s := by
  unfold ofLine
  generalize trimEnd (stripComment line) = text
  simp only
  constructor
  · intro h
    by_cases htext : text.isEmpty = true
    · rw [if_pos htext] at h
      cases h
    rw [if_neg htext] at h
    by_cases hrest : (splitLabel text).2.isEmpty = true
    · rw [if_pos hrest] at h
      cases h
    rw [if_neg hrest] at h
    cases hfield : operandField (trimStart (splitWord (splitLabel text).2).2) with
    | error e => simp [hfield] at h
    | ok field =>
      rw [hfield] at h
      obtain rfl := Option.some.inj (Except.ok.inj h)
      exact .intro rfl (by simpa using hrest) hfield
  · rintro ⟨hlabel, hrest, hfield⟩
    have htext : text ≠ [] := by
      rintro rfl
      exact hrest (congrArg Prod.snd hlabel).symm
    rw [if_neg (by simpa using htext)]
    simp only [hlabel]
    rw [if_neg (by simpa using hrest)]
    simp only [hfield]

/-- The label is split off in front of whatever follows the operation code. -/
theorem splitLabel_append {text rest : List Char} {label : Option (List Char)}
    (h : splitLabel text = (label, rest)) (hrest : rest ≠ []) :
    (∀ ds, splitLabel (text ++ ds) = (label, rest ++ ds)) ∧
      ((∀ l ∈ label, '\'' ∉ l) → endsQuoted rest = endsQuoted text) := by
  cases text with
  | nil => exact absurd (congrArg Prod.snd h).symm hrest
  | cons c cs =>
    simp only [splitLabel] at h
    by_cases hblank : isBlank c = true
    · rw [if_pos hblank] at h
      obtain ⟨rfl, rfl⟩ := Prod.mk.inj h
      refine ⟨fun ds => ?_, fun _ => endsQuoted_trimStart _⟩
      rw [List.cons_append, splitLabel]
      simp only [if_pos hblank]
      rw [← List.cons_append, trimStart_append_of_ne_nil hrest]
    · rw [if_neg hblank] at h
      obtain ⟨rfl, rfl⟩ := Prod.mk.inj h
      have hbehind : (splitWord (c :: cs)).2 ≠ [] := fun hnil => hrest (by rw [hnil]; rfl)
      refine ⟨fun ds => ?_, fun hlabel => ?_⟩
      · rw [List.cons_append, splitLabel]
        simp only [if_neg hblank]
        rw [← List.cons_append, splitWord_append_of_ne_nil hbehind]
        simp only [trimStart_append_of_ne_nil hrest]
      · rw [endsQuoted_trimStart, endsQuoted_splitWord (hlabel _ rfl)]

/-- Behind an open quote that is neither in the label nor in the operation code nor in an operand,
there may be anything. -/
theorem Columns.append {text : List Char} {s : Statement} (h : Columns text s)
    (hlabel : ∀ l ∈ s.label, '\'' ∉ l.toList) (hopcode : '\'' ∉ s.opcode.toList)
    (hquoted : endsQuoted text = true) (ds : List Char) : Columns (text ++ ds) s := by
  obtain @⟨label, rest, field, hsplit, hrest, hfield⟩ := h
  obtain ⟨happend, hlabelled⟩ := splitLabel_append hsplit hrest
  rw [String.toList_ofList] at hopcode
  have hquotes : endsQuoted (trimStart (splitWord rest).2) = true := by
    rw [endsQuoted_trimStart, endsQuoted_splitWord hopcode, hlabelled, hquoted]
    intro l hl
    have hl' := hlabel (.ofList l) (by simp [Option.mem_def.mp hl])
    rwa [String.toList_ofList] at hl'
  have hne : trimStart (splitWord rest).2 ≠ [] := by
    intro hnil
    rw [hnil] at hquotes
    cases hquotes
  have hmore : (splitWord rest).2 ≠ [] := fun hnil => hne (by rw [hnil]; rfl)
  have hword : splitWord (rest ++ ds) = ((splitWord rest).1, (splitWord rest).2 ++ ds) :=
    splitWord_append_of_ne_nil hmore
  have hsame : operandField (trimStart (splitWord (rest ++ ds)).2) = .ok field := by
    rw [hword, trimStart_append_of_ne_nil hne]
    unfold operandField at hfield ⊢
    rcases untilUnquoted_append_cases isBlank false (trimStart (splitWord rest).2) with
      hstopped | hscanned
    · rwa [hstopped]
    · have hall := hscanned []
      rw [List.append_nil] at hall
      rw [hall] at hfield
      simp [untilUnquoted, hquotes] at hfield
  have hcolumns := Columns.intro (happend ds) (List.append_ne_nil_of_left_ne_nil hrest ds) hsame
  rwa [hword] at hcolumns

theorem isBlankLine_of_ofLine {line : List Char} (h : ofLine line = .ok none) :
    isBlankLine line = true := by
  refine List.all_eq_true.mpr (trimEnd_eq_nil_iff.mp (List.isEmpty_iff.mp ?_))
  by_contra hsome
  unfold ofLine at h
  simp only [if_neg hsome] at h
  split at h
  · cases h
  · split at h <;> cases h

/-- A comment behind a line makes no difference to what is read from it. -/
theorem ofLine_append_comment {line : List Char} {found : Option Statement}
    (h : ofLine line = .ok found) (hlabel : ∀ s ∈ found, ∀ l ∈ s.label, '\'' ∉ l.toList)
    (hopcode : ∀ s ∈ found, '\'' ∉ s.opcode.toList) (comment : List Char) :
    ofLine (line ++ ';' :: comment) = .ok found := by
  rcases untilUnquoted_append_cases (· == ';') false line with hstopped | hscanned
  · rw [ofLine, stripComment, hstopped]
    exact h
  have hline : stripComment line = line := by
    have hall := hscanned []
    rwa [List.append_nil, untilUnquoted, List.append_nil] at hall
  cases hquoted : endsQuoted line with
  | false =>
    have hcut : stripComment (line ++ ';' :: comment) = stripComment line := by
      rw [hline, stripComment, hscanned, hquoted, Bool.false_xor]
      exact List.append_nil line
    rw [ofLine, hcut]
    exact h
  | true =>
    cases found with
    | none =>
      have hblank := isBlankLine_of_ofLine h
      rw [isBlankLine, hline] at hblank
      rw [endsQuoted_of_not_mem (quote_not_mem_of_blank (List.all_eq_true.mp hblank))] at hquoted
      cases hquoted
    | some s =>
      obtain ⟨tail, htail⟩ : ∃ tail,
          stripComment (line ++ ';' :: comment) = line ++ ';' :: tail := by
        refine ⟨untilUnquoted (· == ';') true comment, ?_⟩
        rw [stripComment, hscanned, hquoted, Bool.false_xor, untilUnquoted, if_neg (by decide)]
        rfl
      obtain ⟨behind, hbehind, hkept⟩ := exists_trimEnd_append line
      have hcolumns := ofLine_eq_some_iff.mp h
      rw [hline] at hcolumns
      have hopen : endsQuoted (trimEnd line) = true := by
        rw [← hquoted, congrArg endsQuoted hkept, endsQuoted_append,
          endsQuoted_of_not_mem (quote_not_mem_of_blank hbehind), Bool.xor_false]
      have hvisible : trimEnd (';' :: tail) ≠ [] := fun hnil =>
        absurd (trimEnd_eq_nil_iff.mp hnil ';' List.mem_cons_self) (by decide)
      rw [ofLine_eq_some_iff, htail, trimEnd_append_of_ne_nil hvisible, hkept, List.append_assoc]
      exact hcolumns.append (hlabel s rfl) (hopcode s rfl) hopen _

end Statement

namespace Assembly

open Statement

/-- No operation code has a quote in it. -/
theorem Content.quote_not_mem_of_read? {options : AssemblyOptions} {name : String}
    {operands : List String} {content : Content}
    (h : read? options name operands = some content) : '\'' ∉ name.toList := by
  obtain ⟨operation, hname, -⟩ := Option.bind_eq_some_iff.mp h
  obtain ⟨before, behind, heq, -⟩ := List.lookup_eq_some_iff.mp hname
  have hmem : (name, operation) ∈ operationNames := heq ▸ by simp
  have hall : ∀ p ∈ operationNames, '\'' ∉ p.1.toList := by decide
  exact hall _ hmem

section understood

variable {options : AssemblyOptions} {text : List Char} {row : Option Row}

theorem Understood.quote_not_mem {s : Statement} (h : Understood options text row)
    (hread : ofLine text = .ok (some s)) :
    (∀ l ∈ s.label, '\'' ∉ l.toList) ∧ '\'' ∉ s.opcode.toList := by
  refine ⟨fun l hl => (IsWord.of_isLabel (h.label s hread l hl)).unquoted, ?_⟩
  obtain ⟨r, -, hreads⟩ := Row.exists_row_of_statement hread h.row
  cases hreads with
  | start => exact (by decide : '\'' ∉ "START".toList)
  | body hstart hend hcontent => exact Content.quote_not_mem_of_read? hcontent
  | finish => exact (by decide : '\'' ∉ "END".toList)

theorem Understood.ofLine_eq_ok (h : Understood options text row) :
    ∃ found, ofLine text = .ok found := by
  rcases Row.ofLine?_eq_some_iff.mp h.row with ⟨hblank, -⟩ | ⟨s, r, hs, -, -⟩
  · exact ⟨none, hblank⟩
  · exact ⟨some s, hs⟩

/-- A line that has been understood still is with a comment behind it. -/
theorem Understood.append_comment (h : Understood options text row) (comment : List Char) :
    Understood options (text ++ ';' :: comment) row := by
  obtain ⟨found, hfound⟩ := h.ofLine_eq_ok
  have hsame : ofLine (text ++ ';' :: comment) = ofLine text := by
    rw [hfound]
    refine ofLine_append_comment hfound ?_ ?_ comment
    · rintro s rfl
      exact (h.quote_not_mem hfound).1
    · rintro s rfl
      exact (h.quote_not_mem hfound).2
  refine ⟨?_, fun s hs => h.label s (hsame ▸ hs)⟩
  rw [Row.ofLine?, hsame]
  exact h.row

theorem understood_of_isBlankLine (h : isBlankLine text = true) :
    Understood options text none := by
  have hblank := ofLine_of_isBlankLine h
  refine ⟨Row.ofLine?_eq_some_iff.mpr (Or.inl ⟨hblank, rfl⟩), fun s hs => ?_⟩
  rw [hblank] at hs
  cases hs

end understood

/-- Lines with nothing on them leave the layout as it is. -/
theorem Layout.addLines_blank {s : Layout} {n : Nat} {blanks : List (List Char)}
    (h : ∀ text ∈ blanks, isBlankLine text = true) : s.addLines options n blanks = s := by
  induction blanks generalizing n with
  | nil => rfl
  | cons text rest ih =>
    obtain ⟨htext, hrest⟩ := List.forall_mem_cons.mp h
    rw [addLines, addLine_of_takes (understood_of_isBlankLine htext) .blank, ih hrest]

end Assembly

/-- Remarks for a source: lines with nothing but a comment on them, above each line and at the end,
and a comment behind each line that is to get one. -/
structure Remarks where
  above : Nat → List (List Char)
  behind : Nat → Option (List Char)
  blank : ∀ n, ∀ text ∈ above n, Statement.isBlankLine text = true

namespace Remarks

variable (r : Remarks)

/-- The line of the number with its comment, if it is to get one. -/
def commented (n : Nat) (text : List Char) : List Char :=
  text ++ (r.behind n).elim [] (';' :: ·)

/-- The lines from a number on with their remarks. -/
def linesFrom (n : Nat) : List (List Char) → List (List Char)
  | [] => r.above n
  | text :: rest => r.above n ++ r.commented n text :: linesFrom (n + 1) rest

/-- The number that a line gets. -/
def number : Nat → Nat
  | 0 => (r.above 0).length
  | n + 1 => number n + 1 + (r.above (n + 1)).length

theorem number_strictMono : StrictMono r.number :=
  strictMono_nat_of_lt_succ fun n => by
    rw [number]
    omega

/-- Each line has its comment and is where its number says. -/
theorem getElem?_linesFrom (start : Nat) {n i j : Nat} {texts : List (List Char)}
    {text : List Char} (htext : texts[i]? = some text)
    (hstart : start + (r.above n).length = r.number n) (hj : start + j = r.number (n + i)) :
    (r.linesFrom n texts)[j]? = some (r.commented (n + i) text) := by
  induction texts generalizing n i j start with
  | nil => cases htext
  | cons first rest ih =>
    rw [linesFrom]
    cases i with
    | zero =>
      obtain rfl : first = text := Option.some.inj htext
      obtain rfl : j = (r.above n).length := by
        rw [Nat.add_zero] at hj
        omega
      rw [List.getElem?_append_right (Nat.le_refl _), Nat.sub_self]
      rfl
    | succ i =>
      have hbehind : r.number n < r.number (n + (i + 1)) := r.number_strictMono (by omega)
      obtain ⟨k, rfl⟩ : ∃ k, j = (r.above n).length + (k + 1) :=
        ⟨j - (r.above n).length - 1, by omega⟩
      rw [List.getElem?_append_right (Nat.le_add_right _ _), Nat.add_sub_cancel_left,
        List.getElem?_cons_succ]
      rw [show n + (i + 1) = n + 1 + i by omega] at hj ⊢
      have hnext : r.number n + 1 + k = r.number (n + 1 + i) := by omega
      exact ih (r.number n + 1) htext rfl hnext

theorem understood {options : AssemblyOptions} {text : List Char} {row : Option Assembly.Row}
    (h : Assembly.Understood options text row) (n : Nat) :
    Assembly.Understood options (r.commented n text) row := by
  rw [commented]
  cases r.behind n with
  | none => rwa [Option.elim_none, List.append_nil]
  | some comment => exact h.append_comment comment

end Remarks

namespace Assembly.Layout

variable {options : AssemblyOptions} {s : Layout} {n : Nat} {texts : List (List Char)}

/-- Lines with remarks are laid out as they are without, but with the numbers that they get. -/
theorem addLines_remarks (r : Remarks) (start : Nat)
    (hstart : start + (r.above n).length = r.number n)
    (h : (s.addLines options n texts).diagnostics = #[]) :
    (s.renumber r.number).addLines options start (r.linesFrom n texts) =
      (s.addLines options n texts).renumber r.number := by
  induction texts generalizing s n start with
  | nil => exact addLines_blank (r.blank n)
  | cons text rest ih =>
    obtain ⟨row, hrow, htakes⟩ := understood_of_addLine (diagnostics_of_addLines h)
    have hline : (s.renumber r.number).addLine options (r.number n) (r.commented n text) =
        (s.addLine options n text).renumber r.number :=
      addLine_of_takes (r.understood hrow n) (htakes.renumber r.number)
    calc (s.renumber r.number).addLines options start (r.linesFrom n (text :: rest))
        = (s.renumber r.number).addLines options (r.number n)
            (r.commented n text :: r.linesFrom (n + 1) rest) := by
          rw [Remarks.linesFrom, addLines_append, addLines_blank (r.blank n), hstart]
      _ = ((s.addLine options n text).renumber r.number).addLines options (r.number n + 1)
            (r.linesFrom (n + 1) rest) := by rw [addLines, hline]
      _ = (s.addLines options n (text :: rest)).renumber r.number := ih _ rfl h

theorem ofLines_remarks (r : Remarks) (h : (ofLines options texts).diagnostics = #[]) :
    ofLines options (r.linesFrom 0 texts) = (ofLines options texts).renumber r.number := by
  obtain ⟨hsame, hopened, hstarted⟩ := ofLines_eq_addLines h
  rw [hsame] at h hopened hstarted ⊢
  have hlaid := addLines_remarks r (s := {}) 0 (Nat.zero_add _) h
  have hempty : ({} : Layout).renumber r.number = {} := by simp [renumber]
  rw [hempty] at hlaid
  rw [ofLines, hlaid]
  simp [renumber, hopened, hstarted]

end Assembly.Layout

section assemble

variable {source source' : String} {options : AssemblyOptions}

/-- Remarks that are added to a source in which nothing is wrong change the assembled program in the
numbers of its lines only: each line is where its number says, with its comment behind it. -/
theorem remarks_only_renumber_program (r : Remarks)
    (h : (assemble source options).diagnostics = [])
    (hlines : Text.lines source'.toList = r.linesFrom 0 (Text.lines source.toList)) :
    (∀ n text, (Text.lines source.toList)[n]? = some text →
      (Text.lines source'.toList)[r.number n]? = some (r.commented n text)) ∧
    ∃ p, assemble source options = { program := some p } ∧
      assemble source' options = { program := some (p.renumber r.number) } := by
  obtain ⟨hnone, hassemble⟩ := assemble_eq_program h
  refine ⟨fun n text htext => ?_, _, hassemble, ?_⟩
  · rw [hlines]
    have hplace := r.getElem?_linesFrom 0 (n := 0) (j := r.number n) htext
      (Nat.zero_add _) (by rw [Nat.zero_add, Nat.zero_add])
    rwa [Nat.zero_add] at hplace
  · show (Assembly.Layout.ofLines options (Text.lines source'.toList)).link = _
    rw [hlines, Assembly.Layout.ofLines_remarks r hnone]
    exact Assembly.Layout.link_renumber hassemble

end assemble

/-- A source with a semicolon in a string and an open quote in a remark. -/
def plainSource : String := "MAIN START\n LD GR1,A it's\n RET\nA DC 'x;y'\n END\n"

def remarkedSource : String :=
  "MAIN START\n; head\n\n LD GR1,A it's;don't\n RET\nA DC 'x;y';'z'\n END\n ; end\n"

/-- The comment behind the second line is in the quotes of its remark and takes them to an end. -/
def quotedRemarks : Remarks where
  above n := if n = 1 then ["; head".toList, []] else if n = 5 then [" ; end".toList] else []
  behind n := if n = 1 then some "don't".toList else if n = 3 then some "'z'".toList else none
  blank n text htext := by
    split at htext
    · revert text
      decide
    · split at htext
      · revert text
        decide
      · cases htext

theorem remarked_source_renumbered : ∃ p, assemble plainSource {} = { program := some p } ∧
    assemble remarkedSource {} = { program := some (p.renumber quotedRemarks.number) } ∧
    (p.renumber quotedRemarks.number).debug.lineMap.entries = [(0, 3), (2, 4)] := by
  have hnone : (assemble plainSource {}).diagnostics = [] := by decide +kernel
  have hlines : Text.lines remarkedSource.toList =
      quotedRemarks.linesFrom 0 (Text.lines plainSource.toList) := by decide +kernel
  obtain ⟨-, p, hp, hremarked⟩ := remarks_only_renumber_program quotedRemarks hnone hlines
  have hmap : (assemble remarkedSource {}).program.map (·.debug.lineMap.entries) =
      some [(0, 3), (2, 4)] := by decide +kernel
  rw [hremarked] at hmap
  exact ⟨p, hp, hremarked, Option.some.inj hmap⟩

end Comet
