import Comet.Debug.Breakpoint
import Comet.Proofs.Assembly.Linked
import Comet.Proofs.Assembly.Remarks

namespace Comet

namespace Statement

/-- The line is not passed over: there is a statement on it, or it is refused. -/
def isRead (line : List Char) : Bool :=
  match ofLine line with
  | .ok none => false
  | .ok (some _) | .error _ => true

variable {line : List Char}

theorem isRead_eq_false_iff : isRead line = false ↔ ofLine line = .ok none := by
  unfold isRead
  split <;> simp [*]

theorem isRead_of_row {options : AssemblyOptions} {row : Assembly.Row}
    (h : Assembly.Row.ofLine? options line = some (some row)) : isRead line = true := by
  rw [← Bool.not_eq_false, isRead_eq_false_iff]
  intro hnone
  rw [Assembly.Row.ofLine?, hnone] at h
  cases h

theorem isBlankLine_iff : isBlankLine line = true ↔ ofLine line = .ok none :=
  ⟨ofLine_of_isBlankLine, isBlankLine_of_ofLine⟩

theorem not_isBlankLine (line : List Char) : (!isBlankLine line) = isRead line := by
  have hsame : isRead line = false ↔ isBlankLine line = true :=
    isRead_eq_false_iff.trans isBlankLine_iff.symm
  cases hread : isRead line <;> simp_all

end Statement

/-- The lines that the assembler does not pass over, with their numbers. -/
def readLines (source : String) : List (List Char × Nat) :=
  (Text.lines source.toList).zipIdx.filter fun l => Statement.isRead l.1

namespace Assembly

/-- The lines that the block is made from. -/
def Block.lines (b : Block) : List Nat := b.startLine :: b.pieces.toList.map (·.line)

namespace Layout

variable {options : AssemblyOptions} {s t : Layout} {n line : Nat} {texts : List (List Char)}
  {text : List Char}

theorem addLine_of_isRead_eq_false (h : Statement.isRead text = false) :
    s.addLine options n text = s := by
  have hblank := Statement.isBlankLine_iff.mpr (Statement.isRead_eq_false_iff.mp h)
  exact addLine_of_takes (understood_of_isBlankLine hblank) .blank

/-- Only the lines that are not passed over go into a layout, each with its number. -/
theorem addLines_eq_foldl (options : AssemblyOptions) (s : Layout) (n : Nat)
    (texts : List (List Char)) : s.addLines options n texts =
      ((texts.zipIdx n).filter fun l => Statement.isRead l.1).foldl
        (fun s l => s.addLine options l.2 l.1) s := by
  induction texts generalizing s n with
  | nil => rfl
  | cons text rest ih =>
    rw [addLines, List.zipIdx_cons, List.filter_cons, ih]
    cases hread : Statement.isRead text with
    | true => rfl
    | false =>
      rw [addLine_of_isRead_eq_false hread]
      rfl

/-- The lines that the blocks are made from, whether they have ended or not. -/
def lines (s : Layout) : List Nat :=
  s.blocks.flatMap (·.toBlock.lines) ++ s.opened.toList.flatMap Block.lines

theorem Takes.mem_lines {row : Option Row} (h : s.Takes options n row t) (hline : line ∈ t.lines) :
    line ∈ s.lines ∨ line = n ∧ row ≠ none := by
  cases h with
  | blank => exact Or.inl hline
  | start name entryLabel hopened =>
    simp only [lines, blocks, hopened, Option.toList_none, Option.toList_some, List.flatMap_nil,
      List.append_nil, List.flatMap_singleton, Block.lines, List.map_nil, List.mem_append,
      List.mem_singleton] at hline ⊢
    exact hline.imp_right fun hn => ⟨hn, nofun⟩
  | body b label content labels globals hopened =>
    simp only [lines, blocks, hopened, Option.toList_some, List.flatMap_singleton, Block.lines,
      Block.grow_eq, Array.toList_append, List.map_append, List.mem_append, List.mem_cons]
      at hline ⊢
    rcases hline with hclosed | hstart | hold | hnew
    · exact Or.inl (Or.inl hclosed)
    · exact Or.inl (Or.inr (Or.inl hstart))
    · exact Or.inl (Or.inr (Or.inr hold))
    · obtain ⟨piece, hpiece, rfl⟩ := List.mem_map.mp hnew
      exact Or.inr ⟨content.line_of_mem_pieces hpiece, nofun⟩
  | finish b entry globals hopened =>
    simp only [lines, blocks, hopened, Array.toList_push, List.flatMap_append,
      List.flatMap_singleton, Option.toList_none, Option.toList_some, List.flatMap_nil,
      List.append_nil] at hline ⊢
    exact Or.inl hline

/-- Nothing else but what is read from a line of that number makes a layout mention the number. -/
theorem mem_lines_addLines (h : (s.addLines options n texts).diagnostics = #[])
    (hline : line ∈ (s.addLines options n texts).lines) : line ∈ s.lines ∨
      ∃ text, (text, line) ∈ (texts.zipIdx n).filter fun l => Statement.isRead l.1 := by
  induction texts generalizing s n with
  | nil => exact Or.inl hline
  | cons text rest ih =>
    obtain ⟨-, row, hrow, htakes⟩ := takes_of_addLine (diagnostics_of_addLines h)
    rw [List.zipIdx_cons]
    rcases ih h hline with hfirst | ⟨other, hrest⟩
    · rcases htakes.mem_lines hfirst with hbefore | ⟨rfl, hsome⟩
      · exact Or.inl hbefore
      · obtain ⟨r, rfl⟩ := Option.ne_none_iff_exists'.mp hsome
        exact Or.inr ⟨text, List.mem_filter.mpr
          ⟨List.mem_cons_self, Statement.isRead_of_row hrow⟩⟩
    · refine Or.inr ⟨other, ?_⟩
      rw [List.filter_cons]
      split
      · exact List.mem_cons_of_mem _ hrest
      · exact hrest

theorem mem_lines_of_lineAt {a : Word} (h : s.program.debug.lineAt a = some line) :
    line ∈ s.lines := by
  obtain ⟨b, hb, piece, hpiece, -, -, rfl⟩ := lineAt_eq_some h
  refine List.mem_append_left _ (List.mem_flatMap.mpr ⟨b, hb, ?_⟩)
  exact List.mem_cons_of_mem _ (List.mem_map.mpr ⟨piece, hpiece, rfl⟩)

theorem mem_lines_of_subroutine {sub : Subroutine} (h : sub ∈ s.program.debug.subroutines) :
    sub.startLine ∈ s.lines := by
  obtain ⟨b, hb, rfl⟩ := List.mem_map.mp h
  exact List.mem_append_left _ (List.mem_flatMap.mpr ⟨b, hb, List.mem_cons_self⟩)

end Layout

end Assembly

section assemble

variable {source : String} {options : AssemblyOptions} {p : Program} {line : Nat}

/-- Whatever line the blocks are made from, the assembler has read there. -/
theorem read_of_mem_lines (h : (assemble source options).diagnostics = [])
    (hline : line ∈ (layoutOf source options).lines) : ∃ text, (text, line) ∈ readLines source := by
  obtain ⟨hnone, -⟩ := assemble_eq_program h
  obtain ⟨heq, -, -⟩ := Assembly.Layout.ofLines_eq_addLines hnone
  rw [layoutOf] at hnone hline
  rw [heq] at hnone hline
  exact (Assembly.Layout.mem_lines_addLines hnone hline).resolve_left nofun

theorem program_eq_of_assemble (h : (assemble source options).diagnostics = [])
    (hp : (assemble source options).program = some p) : (layoutOf source options).program = p := by
  obtain ⟨-, hassemble⟩ := assemble_eq_program h
  rw [hassemble] at hp
  exact Option.some.inj hp

theorem read_of_lineAt (h : (assemble source options).diagnostics = [])
    (hp : (assemble source options).program = some p) {a : Word}
    (hline : p.debug.lineAt a = some line) : ∃ text, (text, line) ∈ readLines source := by
  rw [← program_eq_of_assemble h hp] at hline
  exact read_of_mem_lines h (Assembly.Layout.mem_lines_of_lineAt hline)

theorem read_of_subroutine (h : (assemble source options).diagnostics = [])
    (hp : (assemble source options).program = some p) {sub : Subroutine}
    (hsub : sub ∈ p.debug.subroutines) : ∃ text, (text, sub.startLine) ∈ readLines source := by
  rw [← program_eq_of_assemble h hp] at hsub
  exact read_of_mem_lines h (Assembly.Layout.mem_lines_of_subroutine hsub)

end assemble

namespace BreakpointTable

section number

variable {texts : List (List Char)} {id : Nat} {wanted : List Nat}

theorem number_eq_map (texts : List (List Char)) (id : Nat) (wanted : List Nat) :
    number texts id wanted = (wanted.zipIdx id).map fun l => ⟨l.2, l.1, canStop texts l.1⟩ := by
  induction wanted generalizing id with
  | nil => rfl
  | cons line rest ih => rw [number, ih, List.zipIdx_cons, List.map_cons]

theorem map_line_number : (number texts id wanted).map (·.line) = wanted := by
  rw [number_eq_map, List.map_map]
  exact List.zipIdx_map_fst id wanted

theorem map_id_number : (number texts id wanted).map (·.id) = List.range' id wanted.length := by
  rw [number_eq_map, List.map_map]
  exact List.zipIdx_map_snd id wanted

theorem verified_of_mem_number {b : Breakpoint} (h : b ∈ number texts id wanted) :
    b.verified = canStop texts b.line := by
  rw [number_eq_map] at h
  obtain ⟨l, -, rfl⟩ := List.mem_map.mp h
  rfl

theorem canStop_iff {source : String} {line : Nat} :
    canStop (Text.lines source.toList) line = true ↔ ∃ text, (text, line) ∈ readLines source := by
  unfold canStop
  simp only [readLines, List.mem_filter, List.mk_mem_zipIdx_iff_getElem?]
  cases (Text.lines source.toList)[line]? with
  | none => simp
  | some text => simp [← Statement.not_isBlankLine]

end number

section set

variable {table : BreakpointTable} {path other : String} {source : Option String}
  {wanted : List Nat} {line : Nat}

theorem set_fst : (table.set path source wanted).1 =
    number (source.elim [] fun text => Text.lines text.toList) table.nextId wanted := by
  cases source <;> rfl

theorem map_line_set : (table.set path source wanted).1.map (·.line) = wanted := by
  rw [set_fst, map_line_number]

theorem map_id_set : (table.set path source wanted).1.map (·.id) =
    List.range' table.nextId wanted.length := by
  rw [set_fst, map_id_number]

/-- A file that cannot be read has no lines to stop at. -/
theorem verified_of_mem_set {b : Breakpoint} (h : b ∈ (table.set path source wanted).1) :
    b.verified = true ↔ ∃ s ∈ source, ∃ text, (text, b.line) ∈ readLines s := by
  rw [set_fst] at h
  rw [verified_of_mem_number h]
  cases source with
  | none => simp [canStop]
  | some s => simp [canStop_iff]

theorem get_set : (table.set path source wanted).2.get path = (table.set path source wanted).1 := by
  simp [set, get]

theorem get_set_of_ne (h : other ≠ path) :
    (table.set path source wanted).2.get other = table.get other := by
  have hlookup (files : List (String × List Breakpoint)) :
      (files.filter (·.1 ≠ path)).lookup other = files.lookup other := by
    induction files with
    | nil => rfl
    | cons file rest ih =>
      rw [List.filter_cons]
      by_cases hfile : file.1 = path
      · rw [if_neg (by simpa using hfile), ih, List.lookup_cons,
          beq_eq_false_iff_ne.mpr (hfile ▸ h)]
      · rw [if_pos (by simpa using hfile), List.lookup_cons, List.lookup_cons, ih]
  simp only [set, get, List.lookup_cons, beq_eq_false_iff_ne.mpr h, hlookup]

theorem contains_iff : table.contains path line = true ↔
    ∃ b ∈ table.get path, b.verified = true ∧ b.line = line := by
  simp [contains]

theorem contains_set_iff {s : String} :
    (table.set path (some s) wanted).2.contains path line = true ↔
      line ∈ wanted ∧ ∃ text, (text, line) ∈ readLines s := by
  have hlines : (table.set path (some s) wanted).1.map (·.line) = wanted := map_line_set
  rw [contains_iff, get_set]
  constructor
  · rintro ⟨b, hb, htrue, rfl⟩
    obtain ⟨_, hsource, hread⟩ := (verified_of_mem_set hb).mp htrue
    cases hsource
    refine ⟨?_, hread⟩
    rw [← hlines]
    exact List.mem_map.mpr ⟨b, hb, rfl⟩
  · rintro ⟨hline, hread⟩
    rw [← hlines] at hline
    obtain ⟨b, hb, rfl⟩ := List.mem_map.mp hline
    exact ⟨b, hb, (verified_of_mem_set hb).mpr ⟨s, rfl, hread⟩, rfl⟩

end set

/-- Breakpoints are verified where the assembler reads something: on the lines that it lays out, by
the numbers that it gives them. For a source in which it finds nothing wrong, any line that the
program knows of can have a breakpoint that counts. -/
theorem verified_iff_read (table : BreakpointTable) (path source : String) (wanted : List Nat) :
    let (answer, after) := table.set path (some source) wanted
    (∀ options, Assembly.Layout.addLines options {} 0 (Text.lines source.toList) =
        (readLines source).foldl (fun s l => s.addLine options l.2 l.1) {}) ∧
      answer.map (·.line) = wanted ∧
      (∀ b ∈ answer, b.verified = true ↔ ∃ text, (text, b.line) ∈ readLines source) ∧
      (∀ line, after.contains path line = true ↔
        line ∈ wanted ∧ ∃ text, (text, line) ∈ readLines source) ∧
      ∀ options p, (assemble source options).diagnostics = [] →
        (assemble source options).program = some p →
        ∀ line ∈ wanted, ((∃ a, p.debug.lineAt a = some line) ∨
          ∃ sub ∈ p.debug.subroutines, sub.startLine = line) → after.contains path line = true := by
  have hlines : (table.set path (some source) wanted).1.map (·.line) = wanted := map_line_set
  have hverified : ∀ b ∈ (table.set path (some source) wanted).1,
      b.verified = true ↔ ∃ text, (text, b.line) ∈ readLines source := by
    intro b hb
    simp [verified_of_mem_set hb]
  refine ⟨fun options => Assembly.Layout.addLines_eq_foldl options {} 0 _, hlines, hverified,
    fun line => contains_set_iff, ?_⟩
  intro options p hnone hp line hwanted hknown
  refine contains_set_iff.mpr ⟨hwanted, ?_⟩
  rcases hknown with ⟨a, hline⟩ | ⟨sub, hsub, rfl⟩
  · exact read_of_lineAt hnone hp hline
  · exact read_of_subroutine hnone hp hsub

end BreakpointTable

/-- The remarks have quotes and semicolons, and so has the constant. -/
def annotatedSource : String :=
  "; it's\r\nMAIN START\r\n\r\n LD GR1,X ; X's\r\n RET\r\n ;'\r\nX DC 'a;b'\r\n END\r\n"

theorem annotated_lines_verified : ∃ p, (assemble annotatedSource {}).program = some p ∧
    p.debug.lineAt 0 = some 3 ∧ ⟨"MAIN", 1⟩ ∈ p.debug.subroutines ∧
    let (answer, after) :=
      ({} : BreakpointTable).set "main.cas" (some annotatedSource) [3, 0, 1, 2, 3, 70]
    answer.map (·.verified) = [true, false, true, false, true, false] ∧
      after.contains "main.cas" 3 = true ∧ after.contains "main.cas" 1 = true := by
  have hnone : (assemble annotatedSource {}).diagnostics = [] := by decide +kernel
  have hknown : (assemble annotatedSource {}).program.all (fun p =>
      p.debug.lineAt 0 = some 3 ∧ ⟨"MAIN", 1⟩ ∈ p.debug.subroutines) = true := by
    decide +kernel
  obtain ⟨-, hassemble⟩ := assemble_eq_program hnone
  have hp : (assemble annotatedSource {}).program = some (layoutOf annotatedSource {}).program := by
    rw [hassemble]
  rw [hp, Option.all_some, decide_eq_true_eq] at hknown
  obtain ⟨hline, hstart⟩ := hknown
  obtain ⟨-, -, -, -, hcounts⟩ := BreakpointTable.verified_iff_read {} "main.cas" annotatedSource
    [3, 0, 1, 2, 3, 70]
  refine ⟨_, hp, hline, hstart, by decide +kernel, ?_, ?_⟩
  · exact hcounts {} _ hnone hp 3 (by decide) (Or.inl ⟨0, hline⟩)
  · exact hcounts {} _ hnone hp 1 (by decide) (Or.inr ⟨_, hstart, rfl⟩)

end Comet
