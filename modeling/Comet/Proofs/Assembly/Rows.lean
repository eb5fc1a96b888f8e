import Comet.Proofs.Assembly.Image

namespace Comet

namespace Assembly

/-- The block that a line opens, which is one subroutine. -/
def Row.heading? (line : Nat) : Option Row → Option Subroutine
  | some (.start name _) => some ⟨name, line⟩
  | _ => none

/-- The blocks that the lines from a number on open. -/
def headingsFrom (options : AssemblyOptions) (line : Nat) : List (List Char) → List Subroutine
  | [] => []
  | text :: rest =>
    ((Row.ofLine? options text).bind (Row.heading? line)).toList ++
      headingsFrom options (line + 1) rest

theorem Row.startLine_of_heading? {line : Nat} {row : Option Row} {sub : Subroutine}
    (h : heading? line row = some sub) : sub.startLine = line := by
  unfold heading? at h
  split at h
  · cases h
    rfl
  · cases h

def Block.heading (b : Block) : Subroutine := ⟨b.name, b.startLine⟩

/-- The blocks that have been opened, whether they have ended or not. -/
def Layout.headings (s : Layout) : List Subroutine :=
  s.blocks.map (·.toBlock.heading) ++ s.opened.toList.map Block.heading

section headings

variable {options : AssemblyOptions} {n : Nat} {s t : Layout} {texts : List (List Char)}

theorem Layout.Takes.headings_eq {row : Option Row} (h : s.Takes options n row t) :
    t.headings = s.headings ++ (Row.heading? n row).toList := by
  cases h with
  | blank => simp [Row.heading?]
  | start name entryLabel hopened =>
    simp [Layout.headings, Layout.blocks, hopened, Row.heading?, Block.heading]
  | body b label content labels globals hopened =>
    simp [Layout.headings, Layout.blocks, hopened, Row.heading?, Block.heading, Block.grow_eq]
  | finish b entry globals hopened =>
    simp [Layout.headings, Layout.blocks, hopened, Row.heading?, Block.heading]

theorem Layout.headings_addLines (h : (s.addLines options n texts).diagnostics = #[]) :
    (s.addLines options n texts).headings = s.headings ++ headingsFrom options n texts := by
  induction texts generalizing s n with
  | nil => simp [Layout.addLines, headingsFrom]
  | cons text rest ih =>
    obtain ⟨-, row, hrow, htakes⟩ := takes_of_addLine (diagnostics_of_addLines h)
    calc (s.addLines options n (text :: rest)).headings
        = (s.addLine options n text).headings ++ headingsFrom options (n + 1) rest := ih h
      _ = s.headings ++ ((Row.heading? n row).toList ++ headingsFrom options (n + 1) rest) := by
          rw [htakes.headings_eq, List.append_assoc]
      _ = s.headings ++ headingsFrom options n (text :: rest) := by
          rw [headingsFrom, hrow, Option.bind_some]

/-- At no line is anything wrong, so each of them can be read. -/
theorem Layout.rows_of_addLines (h : (s.addLines options n texts).diagnostics = #[]) :
    ∀ text ∈ texts, ∃ row, Row.ofLine? options text = some row := by
  induction texts generalizing s n with
  | nil => nofun
  | cons text rest ih =>
    obtain ⟨-, row, hrow, -⟩ := takes_of_addLine (diagnostics_of_addLines h)
    intro other hother
    rcases List.mem_cons.mp hother with rfl | hrest
    · exact ⟨row, hrow⟩
    · exact ih h other hrest

theorem startLine_of_mem_headingsFrom {sub : Subroutine} (h : sub ∈ headingsFrom options n texts) :
    n ≤ sub.startLine := by
  induction texts generalizing n with
  | nil => cases h
  | cons text rest ih =>
    rcases List.mem_append.mp h with hfirst | hrest
    · obtain ⟨row, -, hheading⟩ := Option.bind_eq_some_iff.mp (Option.mem_toList.mp hfirst)
      exact Nat.le_of_eq (Row.startLine_of_heading? hheading).symm
    · exact Nat.le_of_succ_le (ih hrest)

/-- One line opens at most one block, so the START lines ascend. -/
theorem headingsFrom_ascending (options : AssemblyOptions) (n : Nat) (texts : List (List Char)) :
    (headingsFrom options n texts).Pairwise fun a b => a.startLine < b.startLine := by
  induction texts generalizing n with
  | nil => exact .nil
  | cons text rest ih =>
    refine List.pairwise_append.mpr ⟨?_, ih (n + 1), ?_⟩
    · cases (Row.ofLine? options text).bind (Row.heading? n) with
      | none => exact .nil
      | some sub => exact List.pairwise_singleton _ _
    · intro a ha b hb
      obtain ⟨row, -, hheading⟩ := Option.bind_eq_some_iff.mp (Option.mem_toList.mp ha)
      rw [Row.startLine_of_heading? hheading]
      exact startLine_of_mem_headingsFrom hb

end headings

section listed

variable {options : AssemblyOptions}

theorem readable_of_listFrom {last : Option ListingBlock} {location line : Nat}
    {texts : List (List Char)} {blocks : List ListingBlock}
    (h : listFrom options last location line texts = some blocks)
    (hlast : ∀ b, last = some b → ∀ l ∈ b.body, l.content.Readable options) :
    ∀ b ∈ blocks, ∀ l ∈ b.body, l.content.Readable options := by
  rw [listFrom_eq_some_iff] at h
  induction h with
  | done => exact fun b hb => absurd hb List.not_mem_nil
  | blank _ _ ih => exact ih hlast
  | start _ _ ih => exact ih (by rintro _ ⟨⟩; nofun)
  | @body b _ _ _ _ _ label content hrow _ ih =>
    refine ih ?_
    rintro _ ⟨⟩ l hl
    rcases List.mem_append.mp hl with hold | hnew
    · exact hlast b rfl l hold
    · obtain rfl := List.mem_singleton.mp hnew
      exact Row.readable_of_ofLine? hrow
  | finish _ _ ih =>
    intro c hc
    rcases List.mem_cons.mp hc with rfl | hrest
    · exact hlast c rfl
    · exact ih nofun c hrest

end listed

end Assembly

section assemble

variable {source : String} {options : AssemblyOptions}

/-- The START lines of a source, with the names of their blocks. -/
def headings (source : String) (options : AssemblyOptions) : List Subroutine :=
  Assembly.headingsFrom options 0 (Text.lines source.toList)

/-- The blocks of the program are those that the START lines of the source open. -/
theorem headings_of_assemble (h : (assemble source options).diagnostics = []) :
    (layoutOf source options).blocks.map (·.toBlock.heading) = headings source options := by
  obtain ⟨hnone, -⟩ := assemble_eq_program h
  obtain ⟨heq, hopened, -⟩ := Assembly.Layout.ofLines_eq_addLines hnone
  rw [layoutOf] at hnone ⊢
  rw [heq] at hnone hopened ⊢
  have hall := Assembly.Layout.headings_addLines hnone
  rwa [Assembly.Layout.headings, hopened, Option.toList_none, List.map_nil, List.append_nil] at hall

theorem subroutines_of_assemble (h : (assemble source options).diagnostics = []) :
    (layoutOf source options).program.debug.subroutines = headings source options :=
  headings_of_assemble h

theorem rows_of_assemble (h : (assemble source options).diagnostics = []) :
    ∀ text ∈ Text.lines source.toList, ∃ row, Assembly.Row.ofLine? options text = some row := by
  obtain ⟨hnone, -⟩ := assemble_eq_program h
  obtain ⟨heq, -, -⟩ := Assembly.Layout.ofLines_eq_addLines hnone
  rw [layoutOf, heq] at hnone
  exact Assembly.Layout.rows_of_addLines hnone

end assemble

end Comet
