import Comet.Proofs.Assembly.Fitting
import Comet.Proofs.Assembly.Image
import Comet.Proofs.Assembly.Silent
import Mathlib.Data.List.Nodup

namespace Comet

namespace Assembly

/-- Why a line is refused in the layout: it is malformed, or else the layout declines what it is. -/
def Layout.Faults (options : AssemblyOptions) (s : Layout) (line : Nat) (text : List Char)
    (message : String) : Prop :=
  Malformed options text ∨ ∃ row e, Understood options text (some row) ∧
    s.Declines options line row e ∧ message = e.message

/-- What is reported of lines from a number on: one thing at most of each, in their order, and of
no malformed line nothing. -/
inductive Reports (options : AssemblyOptions) :
    Layout → Nat → List (List Char) → List Diagnostic → Prop
  | nil (s : Layout) (n : Nat) : Reports options s n [] []
  | taken {s : Layout} {n : Nat} {text : List Char} {rest : List (List Char)}
      {reported : List Diagnostic} (htext : ¬ Malformed options text)
      (hrest : Reports options (s.addLine options n text) (n + 1) rest reported) :
      Reports options s n (text :: rest) reported
  | refused {s : Layout} {n : Nat} {text : List Char} {rest : List (List Char)} {message : String}
      {reported : List Diagnostic} (htext : s.Faults options n text message)
      (hrest : Reports options (s.addLine options n text) (n + 1) rest reported) :
      Reports options s n (text :: rest) (⟨n, message⟩ :: reported)

section reports

variable {options : AssemblyOptions} {n : Nat} {texts : List (List Char)} {text : List Char}
  {reported : List Diagnostic} {s : Layout}

/-- A line that is refused is reported once it is over. -/
theorem Layout.diagnostics_of_refuses {e : SourceError}
    (h : Pass.Refuses (Pass.sourceLine options n text) s e) :
    (s.addLine options n text).diagnostics = s.diagnostics.push ⟨n, e.message⟩ := by
  obtain ⟨t, hrun⟩ := h
  have hsilent : (Pass.sourceLine options n text).Silent s := .sourceLine
  rw [Pass.Silent, hrun] at hsilent
  rw [addLine, hrun]
  exact congrArg (Array.push · _) hsilent

/-- A line is either taken, and then it is not malformed, or it is reported with its number. -/
theorem Layout.addLine_cases (options : AssemblyOptions) (s : Layout) (n : Nat)
    (text : List Char) :
    (¬ Malformed options text ∧
        (s.addLine options n text).diagnostics = s.diagnostics) ∨
      ∃ message, s.Faults options n text message ∧
        (s.addLine options n text).diagnostics = s.diagnostics.push ⟨n, message⟩ := by
  rcases Pass.accepts_or_refuses (Pass.sourceLine options n text) s with
    ⟨u, t, haccepts⟩ | ⟨e, hrefuses⟩
  · obtain ⟨row, hrow, htakes⟩ := Pass.understood_of_sourceLine haccepts
    refine Or.inl ⟨not_malformed_iff.mpr ⟨row, hrow⟩, ?_⟩
    rw [addLine_of_takes hrow htakes, htakes.diagnostics]
  · refine Or.inr ⟨e.message, ?_, diagnostics_of_refuses hrefuses⟩
    by_cases hmalformed : Malformed options text
    · exact Or.inl hmalformed
    · obtain ⟨row, hrow⟩ := not_malformed_iff.mp hmalformed
      obtain ⟨r, rfl, hdeclines⟩ := Pass.declines_of_sourceLine hrow hrefuses
      exact Or.inr ⟨r, e, hrow, hdeclines, rfl⟩

/-- Going through the lines adds what is reported of them to what has been reported before. -/
theorem Layout.exists_reports (options : AssemblyOptions) (s : Layout) (n : Nat)
    (texts : List (List Char)) : ∃ reported, Reports options s n texts reported ∧
      (s.addLines options n texts).diagnostics.toList = s.diagnostics.toList ++ reported := by
  induction texts generalizing s n with
  | nil => exact ⟨[], .nil s n, (List.append_nil _).symm⟩
  | cons text rest ih =>
    obtain ⟨reported, hrest, hall⟩ := ih (s.addLine options n text) (n + 1)
    rcases addLine_cases options s n text with ⟨htext, hsame⟩ | ⟨message, htext, hpush⟩
    · exact ⟨reported, .taken htext hrest, by rw [addLines, hall, hsame]⟩
    · refine ⟨_, .refused htext hrest, ?_⟩
      rw [addLines, hall, hpush, Array.toList_push, List.append_assoc, List.singleton_append]

theorem Layout.mem_diagnostics_addLines {d : Diagnostic} (h : d ∈ s.diagnostics.toList) :
    d ∈ (s.addLines options n texts).diagnostics.toList := by
  obtain ⟨reported, -, hall⟩ := exists_reports options s n texts
  rw [hall]
  exact List.mem_append_left _ h

namespace Reports

theorem bounds (h : Reports options s n texts reported) :
    ∀ k ∈ reported.map (·.line), n ≤ k ∧ k < n + texts.length := by
  induction h with
  | nil => nofun
  | taken htext hrest ih =>
    intro k hk
    have hbounds := ih k hk
    rw [List.length_cons]
    omega
  | refused htext hrest ih =>
    rw [List.map_cons, List.forall_mem_cons, List.length_cons]
    refine ⟨⟨Nat.le_refl _, Nat.lt_add_of_pos_right (Nat.succ_pos _)⟩, fun k hk => ?_⟩
    have hbounds := ih k hk
    omega

/-- The reports are in the order of the lines, and no two are of one line. -/
theorem ascending (h : Reports options s n texts reported) :
    (reported.map (·.line)).Pairwise (· < ·) := by
  induction h with
  | nil => exact .nil
  | taken htext hrest ih => exact ih
  | refused htext hrest ih => exact .cons (fun k hk => (hrest.bounds k hk).1) ih

theorem mem_of_malformed (h : Reports options s n texts reported) {i : Nat}
    (htext : texts[i]? = some text) (hmalformed : Malformed options text) :
    n + i ∈ reported.map (·.line) := by
  induction h generalizing i with
  | nil => cases htext
  | taken hnot hrest ih =>
    cases i with
    | zero =>
      cases htext
      exact absurd hmalformed hnot
    | succ i =>
      rw [Nat.add_comm i, ← Nat.add_assoc]
      exact ih htext
  | refused hfaults hrest ih =>
    rw [List.map_cons]
    cases i with
    | zero => exact List.mem_cons_self
    | succ i =>
      rw [Nat.add_comm i, ← Nat.add_assoc]
      exact List.mem_cons_of_mem _ (ih htext)

/-- Of a malformed line there is one report, wherever it stands. -/
theorem count_malformed (h : Reports options s n texts reported) {i : Nat}
    (htext : texts[i]? = some text) (hmalformed : Malformed options text) :
    (reported.map (·.line)).count (n + i) = 1 :=
  List.nodup_iff_count_eq_one.mp (h.ascending.imp Nat.ne_of_lt) _
    (h.mem_of_malformed htext hmalformed)

/-- What is reported is said of a line, for what the layout has come to before it. -/
theorem faults_of_mem (h : Reports options s n texts reported) {d : Diagnostic}
    (hd : d ∈ reported) : ∃ i text, texts[i]? = some text ∧ d.line = n + i ∧
      (s.addLines options n (texts.take i)).Faults options d.line text d.message := by
  have hbehind {s : Layout} {n : Nat} {first : List Char} {rest : List (List Char)}
      (h : ∃ i text, rest[i]? = some text ∧ d.line = n + 1 + i ∧
        ((s.addLine options n first).addLines options (n + 1) (rest.take i)).Faults options d.line
          text d.message) :
      ∃ i text, (first :: rest)[i]? = some text ∧ d.line = n + i ∧
        (s.addLines options n ((first :: rest).take i)).Faults options d.line text d.message := by
    obtain ⟨i, text, htext, hline, hfaults⟩ := h
    exact ⟨i + 1, text, htext, by omega, hfaults⟩
  induction h with
  | nil => cases hd
  | taken _ _ ih => exact hbehind (ih hd)
  | refused hfaults _ ih =>
    rcases List.mem_cons.mp hd with rfl | hrest
    · exact ⟨0, _, rfl, rfl, hfaults⟩
    · exact hbehind (ih hrest)

end Reports

end reports

/-- What is missing at the end of a source that ends in a block. -/
def Layout.missingEnd (s : Layout) (last : Nat) : List Diagnostic :=
  s.opened.toList.map fun b => ⟨last, (SourceError.missingEnd b.name).message⟩

def Layout.missingStart (s : Layout) : List Diagnostic :=
  if s.started then [] else [⟨0, SourceError.noStart.message⟩]

/-- The end of a source shows what is missing in it. -/
theorem Layout.diagnostics_ofLines (options : AssemblyOptions) (texts : List (List Char)) :
    (ofLines options texts).diagnostics.toList =
      (addLines options {} 0 texts).diagnostics.toList ++
        (ofLines options texts).missingEnd (texts.length - 1) ++
        (ofLines options texts).missingStart := by
  unfold ofLines
  generalize addLines options {} 0 texts = laid
  cases hopened : laid.opened <;> cases hstarted : laid.started <;>
    simp [report, missingEnd, missingStart, hopened, hstarted]

theorem Layout.mem_diagnostics_ofLines {options : AssemblyOptions} {texts : List (List Char)}
    {d : Diagnostic} (h : d ∈ (addLines options {} 0 texts).diagnostics.toList) :
    d ∈ (ofLines options texts).diagnostics.toList := by
  rw [diagnostics_ofLines, List.append_assoc]
  exact List.mem_append_left _ h

section linked

/-- The name has a meaning in the block: it is a label of the block or the name of a block, or
without scopes a label of any block. -/
def ListingBlock.Knows (options : AssemblyOptions) (blocks : List ListingBlock) (b : ListingBlock)
    (name : String) : Prop :=
  (∃ l ∈ b.body, l.label = some name) ∨ (∃ c ∈ blocks, c.name = name) ∨
    (options.labelScope = false ∧ ∃ c ∈ blocks, ∃ l ∈ c.body, l.label = some name)

instance (options : AssemblyOptions) (blocks : List ListingBlock) (b : ListingBlock)
    (name : String) : Decidable (b.Knows options blocks name) :=
  inferInstanceAs (Decidable (_ ∨ _ ∨ _))

/-- One report for each word of the line that stands for a label without a meaning. -/
def ListingLine.unknownLabels (options : AssemblyOptions) (blocks : List ListingBlock)
    (b : ListingBlock) (l : ListingLine) : List Diagnostic :=
  l.content.cells.filterMap fun
    | .label name =>
      if b.Knows options blocks name then none
      else some ⟨l.line, (SourceError.undefinedLabel name).message⟩
    | _ => none

/-- The same for all lines, in their order. -/
def unknownLabels (options : AssemblyOptions) (blocks : List ListingBlock) : List Diagnostic :=
  blocks.flatMap fun b => b.body.flatMap (·.unknownLabels options blocks b)

variable {options : AssemblyOptions} {blocks : List ListingBlock} {s : Layout} {lb : ListingBlock}

theorem Names.knows {name : String} {a : Nat} (h : Names options blocks lb name a) :
    lb.Knows options blocks name := by
  cases h with
  | own hl hlabel => exact Or.inl ⟨_, hl, hlabel⟩
  | shared hscope hc hl hlabel => exact Or.inr (Or.inr ⟨hscope, _, hc, _, hl, hlabel⟩)
  | origin _ hc _ => exact Or.inr (Or.inl ⟨_, hc, rfl⟩)
  | entry _ hc _ _ => exact Or.inr (Or.inl ⟨_, hc, rfl⟩)

/-- The names that can be resolved are those that have a meaning. -/
theorem Layout.Realizes.isSome_resolve_iff {b : Block} {name : String}
    (hs : s.Realizes options blocks none) (hlb : lb ∈ blocks) (hb : b.Realizes options lb) :
    (b.resolve s.globals name).isSome = true ↔ lb.Knows options blocks name := by
  have hlast : lb ∈ blocks ++ (none : Option ListingBlock).toList := by simpa using hlb
  constructor
  · intro h
    obtain ⟨w, hw⟩ := Option.isSome_iff_exists.mp h
    have hnames := hs.names_of_resolve hb hlast hw
    rw [Option.toList_none, List.append_nil] at hnames
    exact hnames.knows
  · intro h
    by_cases hown : ∃ l ∈ lb.body, l.label = some name
    · obtain ⟨l, hl, hlabel⟩ := hown
      rw [hs.resolve_own hb hlast hl hlabel]
      rfl
    · rcases h with h | ⟨lc, hlc, rfl⟩ | ⟨hscope, lc, hlc, l, hl, hlabel⟩
      · exact absurd h hown
      · obtain ⟨c, hc, hrealizes⟩ := hs.exists_closed hlc
        have hmem : (lc.name, c.entry) ∈ s.globals :=
          (hs.globals _ _).mpr (Or.inl ⟨c, hc, hrealizes.name, rfl⟩)
        have hforeign : ∀ l ∈ lb.body, l.label ≠ some lc.name :=
          fun l hl hlabel => hown ⟨l, hl, hlabel⟩
        rw [Layout.Realizes.resolve_foreign hb hforeign, lookup_of_mem hs.globalsNodup hmem]
        rfl
      · rw [hs.resolve_shared hb hscope (by simpa using hlc) hl hlabel]
        rfl

theorem ClosedBlock.Realizes.undefinedLabels_eq {b : ClosedBlock}
    (hs : s.Realizes options blocks none) (hlb : lb ∈ blocks)
    (hb : b.Realizes options s.globals blocks lb) :
    b.undefinedLabels s.globals = lb.body.flatMap (·.unknownLabels options blocks lb) := by
  rw [undefinedLabels, hb.pieces, List.flatMap_assoc]
  refine List.flatMap_congr fun l hl => ?_
  have hpiece : ∀ piece ∈ l.pieces, piece.line = l.line :=
    fun piece hpiece => l.content.line_of_mem_pieces hpiece
  rw [ListingLine.unknownLabels, ← l.content.flatMap_cells_pieces l.line l.location,
    List.filterMap_flatMap]
  refine List.flatMap_congr fun piece hmem => List.filterMap_congr fun c hc => ?_
  cases c with
  | value w => rfl
  | literal words => rfl
  | label name =>
    have hknown : (b.resolve s.globals name).isSome = true ↔ lb.Knows options blocks name :=
      hs.isSome_resolve_iff hlb hb.toRealizes
    simp only [hpiece piece hmem, hknown]

/-- What linking reports are the labels in the words of the listing that have no meaning. -/
theorem Layout.Realizes.undefinedLabels_eq (hs : s.Realizes options blocks none) :
    s.blocks.flatMap (·.undefinedLabels s.globals) = unknownLabels options blocks := by
  have hblocks := forall₂_with_mem hs.closed
  have hall : List.Forall₂ (· = ·) (s.blocks.flatMap (·.undefinedLabels s.globals))
      (unknownLabels options blocks) := by
    refine List.rel_flatMap hblocks ?_
    rintro b lb ⟨-, hlb, hb⟩
    simp only [hb.undefinedLabels_eq hs hlb, List.forall₂_eq_eq_eq]
  rwa [List.forall₂_eq_eq_eq] at hall

/-- Lines are listed in their order, behind those that the open block has already. -/
theorem lines_of_listFrom {last : Option ListingBlock} {location line : Nat}
    {texts : List (List Char)} (h : listFrom options last location line texts = some blocks) :
    ∃ new, blocks.flatMap (·.body.map (·.line)) = last.elim [] (·.body.map (·.line)) ++ new ∧
      new.Pairwise (· < ·) ∧ ∀ k ∈ new, line ≤ k := by
  rw [listFrom_eq_some_iff] at h
  induction h with
  | done => exact ⟨[], rfl, .nil, fun k hk => absurd hk List.not_mem_nil⟩
  | blank _ _ ih | start _ _ ih =>
    obtain ⟨new, hnew, hpairs, hle⟩ := ih
    exact ⟨new, hnew, hpairs, fun k hk => Nat.le_of_succ_le (hle k hk)⟩
  | @body b _ line _ _ _ _ _ _ _ ih =>
    obtain ⟨new, hnew, hpairs, hle⟩ := ih
    refine ⟨line :: new, ?_, .cons hle hpairs, ?_⟩
    · rw [hnew]
      simp [ListingBlock.addLine]
    · exact List.forall_mem_cons.mpr ⟨Nat.le_refl _, fun k hk => Nat.le_of_succ_le (hle k hk)⟩
  | finish _ _ ih =>
    obtain ⟨new, hnew, hpairs, hle⟩ := ih
    refine ⟨new, ?_, hpairs, fun k hk => Nat.le_of_succ_le (hle k hk)⟩
    rw [List.flatMap_cons, hnew]
    rfl

theorem ListingLine.line_of_mem_unknownLabels {l : ListingLine} {d : Diagnostic}
    (h : d ∈ l.unknownLabels options blocks lb) : d.line = l.line := by
  obtain ⟨c, -, hc⟩ := List.mem_filterMap.mp h
  split at hc
  · split at hc
    · cases hc
    · cases hc
      rfl
  · cases hc

theorem unknownLabels_ordered
    (h : (blocks.flatMap (·.body.map (·.line))).Pairwise (· < ·)) :
    (unknownLabels options blocks).Pairwise fun d e => d.line ≤ e.line := by
  obtain ⟨hwithin, hbetween⟩ := List.pairwise_flatMap.mp h
  have hline {b : ListingBlock} {l : ListingLine} {d : Diagnostic}
      (hd : d ∈ l.unknownLabels options blocks b) : d.line = l.line :=
    ListingLine.line_of_mem_unknownLabels hd
  refine List.pairwise_flatMap.mpr ⟨fun b hb => List.pairwise_flatMap.mpr ⟨?_, ?_⟩, ?_⟩
  · intro l hl
    exact List.pairwise_of_forall_mem_list fun d hd e he =>
      Nat.le_of_eq ((hline hd).trans (hline he).symm)
  · refine (List.pairwise_map.mp (hwithin b hb)).imp fun {l m} hlt d hd e he => ?_
    rw [hline hd, hline he]
    exact Nat.le_of_lt hlt
  · refine hbetween.imp fun {b c} hlt d hd e he => ?_
    obtain ⟨l, hl, hd⟩ := List.mem_flatMap.mp hd
    obtain ⟨m, hm, he⟩ := List.mem_flatMap.mp he
    rw [hline hd, hline he]
    exact Nat.le_of_lt (hlt _ (List.mem_map_of_mem hl) _ (List.mem_map_of_mem hm))

end linked

end Assembly

section assemble

open Assembly

/-- Linking reports what the layout has reported, if there is anything of the kind. -/
theorem diagnostics_assemble_of_ne {source : String} {options : AssemblyOptions}
    (h : (layoutOf source options).diagnostics ≠ #[]) :
    (assemble source options).diagnostics = (layoutOf source options).diagnostics.toList := by
  show ((layoutOf source options).link).diagnostics = _
  rw [Layout.link, if_neg (by simpa using h)]

theorem mem_diagnostics_assemble {source : String} {options : AssemblyOptions} {d : Diagnostic}
    (h : d ∈ (layoutOf source options).diagnostics.toList) :
    d ∈ (assemble source options).diagnostics := by
  rwa [diagnostics_assemble_of_ne fun hnone => by simp [hnone] at h]

/-- Every malformed line is reported once, with its own number, whatever else is wrong; all reports
are in the order of the lines, except that of a missing START, which is the last. Only if there are
none of these, the words that stand for labels without a meaning are reported, each on its line. -/
theorem malformed_lines_reported_once (source : String) (options : AssemblyOptions) :
    ∃ reported : List Diagnostic,
      (∀ k text, (Text.lines source.toList)[k]? = some text → Malformed options text →
        (reported.map (·.line)).count k = 1) ∧
      (reported.map (·.line)).Pairwise (· < ·) ∧
      (∀ d ∈ reported, ∃ text, (Text.lines source.toList)[d.line]? = some text ∧
        (Layout.addLines options {} 0 ((Text.lines source.toList).take d.line)).Faults options
          d.line text d.message) ∧
      (reported ++ (layoutOf source options).missingEnd
        ((Text.lines source.toList).length - 1)).Pairwise (fun d e => d.line ≤ e.line) ∧
      (layoutOf source options).diagnostics.toList =
        reported ++ (layoutOf source options).missingEnd ((Text.lines source.toList).length - 1) ++
          (layoutOf source options).missingStart ∧
      ((layoutOf source options).diagnostics ≠ #[] →
        (assemble source options).diagnostics =
          (layoutOf source options).diagnostics.toList) ∧
      ((layoutOf source options).diagnostics = #[] →
        ∃ blocks, listing source options = some blocks ∧
          (assemble source options).diagnostics = unknownLabels options blocks ∧
          (unknownLabels options blocks).Pairwise fun d e => d.line ≤ e.line) := by
  obtain ⟨reported, hreports, hlaid⟩ :=
    Layout.exists_reports options {} 0 (Text.lines source.toList)
  have hall := Layout.diagnostics_ofLines options (Text.lines source.toList)
  rw [hlaid, List.nil_append] at hall
  refine ⟨reported, fun k text htext hmalformed => ?_, hreports.ascending, fun d hd => ?_, ?_, hall,
    diagnostics_assemble_of_ne, ?_⟩
  · have hcount := hreports.count_malformed htext hmalformed
    rwa [Nat.zero_add] at hcount
  · obtain ⟨i, text, htext, hline, hfaults⟩ := hreports.faults_of_mem hd
    rw [Nat.zero_add] at hline
    rw [← hline] at htext hfaults
    exact ⟨text, htext, hfaults⟩
  · have hordered : reported.Pairwise fun d e => d.line ≤ e.line :=
      (List.pairwise_map.mp hreports.ascending).imp Nat.le_of_lt
    refine List.pairwise_append.mpr ⟨hordered, ?_, fun d hd e he => ?_⟩
    · rw [Layout.missingEnd]
      cases (layoutOf source options).opened with
      | none => exact .nil
      | some b => exact List.pairwise_singleton _ _
    · obtain ⟨b, -, rfl⟩ := List.mem_map.mp he
      obtain ⟨-, hlt⟩ := hreports.bounds d.line (List.mem_map_of_mem hd)
      show d.line ≤ (Text.lines source.toList).length - 1
      omega
  · intro hnone
    obtain ⟨blocks, hlisted, hrealizes, -⟩ := listing_of_layoutOf hnone
    obtain ⟨new, hnew, hpairs, -⟩ := lines_of_listFrom hlisted
    refine ⟨blocks, hlisted, ?_, unknownLabels_ordered (by rw [hnew]; exact hpairs)⟩
    show ((layoutOf source options).link).diagnostics = _
    rw [Layout.link_diagnostics hnone, hrealizes.undefinedLabels_eq]

end assemble

end Comet
