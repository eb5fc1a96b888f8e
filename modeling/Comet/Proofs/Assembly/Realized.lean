import Comet.Proofs.Assembly.Blocks
import Comet.Proofs.Assembly.Counter
import Mathlib.Data.List.Forall2

namespace Comet.Assembly

/-- In a table in which every key is once, what is in it is found. -/
theorem lookup_of_mem {κ ν : Type} [BEq κ] [LawfulBEq κ] {table : List (κ × ν)} {k : κ} {v : ν}
    (hnodup : (table.map (·.1)).Nodup) (hmem : (k, v) ∈ table) : table.lookup k = some v := by
  induction table with
  | nil => cases hmem
  | cons entry rest ih =>
    rw [List.map_cons, List.nodup_cons] at hnodup
    rcases List.mem_cons.mp hmem with rfl | hrest
    · simp
    · have hne : k ≠ entry.1 := by
        rintro rfl
        exact hnodup.1 (List.mem_map.mpr ⟨_, hrest, rfl⟩)
      rw [List.lookup_cons, beq_eq_false_iff_ne.mpr hne]
      exact ih hnodup.2 hrest

namespace Symbols

variable {table t : Symbols} {name other : String} {address a : Word}

theorem define_eq_ok : Symbols.define table name address = .ok t ↔
    table.lookup name = none ∧ t = (name, address) :: table := by
  unfold Symbols.define
  cases table.lookup name with
  | none => simp [eq_comm]
  | some a => simp

theorem mem_of_lookup (h : table.lookup name = some a) : (name, a) ∈ table := by
  obtain ⟨before, behind, htable, -⟩ := List.lookup_eq_some_iff.mp h
  rw [htable]
  simp

theorem nodup_cons_of_define (hnodup : (table.map (·.1)).Nodup)
    (hfresh : table.lookup name = none) : (((name, address) :: table).map (·.1)).Nodup := by
  rw [List.map_cons, List.nodup_cons]
  refine ⟨?_, hnodup⟩
  rw [List.mem_map]
  rintro ⟨entry, hmem, hname⟩
  have hne := List.lookup_eq_none_iff.mp hfresh entry hmem
  simp [hname] at hne

/-- A name that has a meaning keeps it when another one is defined. -/
theorem lookup_define (hfresh : table.lookup name = none) (h : table.lookup other = some a) :
    List.lookup other ((name, address) :: table) = some a := by
  have hne : other ≠ name := by
    rintro rfl
    rw [hfresh] at h
    cases h
  rw [List.lookup_cons, beq_eq_false_iff_ne.mpr hne]
  exact h

end Symbols

/-- What resolves to an address still does when a global name has been defined. -/
theorem Block.entry?_define {b : Block} {globals : Symbols} {name : String} {address entry : Word}
    (hfresh : globals.lookup name = none) (h : b.entry? globals = some entry) :
    b.entry? ((name, address) :: globals) = some entry := by
  unfold entry? at h ⊢
  split at h
  · exact h
  · unfold resolve at h ⊢
    rcases Option.or_eq_some_iff.mp h with hlabel | ⟨hnone, hglobal⟩
    · rw [hlabel]
      rfl
    · rw [hnone, Symbols.lookup_define hfresh hglobal]
      rfl

theorem eraseDups_concat (xs : List (List Word)) (words : List Word) :
    (xs ++ [words]).eraseDups = if words ∈ xs then xs.eraseDups else xs.eraseDups ++ [words] := by
  rw [List.eraseDups_append]
  by_cases hmem : words ∈ xs
  · simp [List.removeAll, hmem]
  · simp [List.removeAll, hmem, List.eraseDups_cons]

/-- A block that has each of these literals once notes those of the cells behind them. -/
theorem Block.note_literals {b : Block} {used : List (List Word)} {cells : List Cell}
    (h : b.literals = used.eraseDups) :
    (b.note cells).literals = (used ++ cells.filterMap Cell.literal?).eraseDups := by
  unfold note
  induction cells.filterMap Cell.literal? generalizing b used with
  | nil => simpa using h
  | cons words rest ih =>
    have hadd : (b.addLiteral words).literals = (used ++ [words]).eraseDups := by
      rw [eraseDups_concat, addLiteral, h]
      simp only [List.mem_eraseDups]
      split
      · exact h
      · rfl
    rw [List.foldl_cons, ih hadd, List.append_assoc, List.singleton_append]

def ListingLine.pieces (l : ListingLine) : List Piece := l.content.pieces l.line l.location

/-- The labels of the block in the order of their lines, as they are put into a table. -/
def ListingBlock.labels (b : ListingBlock) : Symbols :=
  b.body.filterMap fun l => l.label.map fun name => (name, .ofNat l.location)

/-- The block is laid out as it is listed. -/
structure Block.Realizes (options : AssemblyOptions) (b : Block) (lb : ListingBlock) : Prop where
  name : b.name = lb.name
  entryLabel : b.entryLabel = lb.entryLabel
  origin : b.origin = .ofNat lb.origin
  originFree : lb.origin < memorySize
  -- A label is put at the front of the table of its block, or without scopes of the global one.
  labels : b.labels = if options.labelScope then lb.labels.reverse else []
  labelsNodup : (b.labels.map (·.1)).Nodup
  labelsFree : ∀ l ∈ lb.body, l.label ≠ none → l.location < memorySize
  pieces : b.pieces.toList = lb.body.flatMap (·.pieces)
  literals : b.literals = lb.literals

/-- Where execution of the block starts, by what its entry label means in it. -/
def ListingBlock.EntersAt (options : AssemblyOptions) (blocks : List ListingBlock)
    (b : ListingBlock) (a : Nat) : Prop :=
  match b.entryLabel with
  | none => a = b.origin
  | some label => Names options blocks b label a

structure ClosedBlock.Realizes (options : AssemblyOptions) (globals : Symbols)
    (blocks : List ListingBlock) (b : ClosedBlock) (lb : ListingBlock) : Prop
    extends Block.Realizes options b.toBlock lb where
  entry : b.toBlock.entry? globals = some b.entry
  enters : lb.EntersAt options blocks b.entry.toNat
  pool : b.pool = placePool (lb.origin + lb.statementCells.length) lb.literals

/-- The layout has the listed blocks, the last of which may still be open. -/
structure Layout.Realizes (options : AssemblyOptions) (blocks : List ListingBlock)
    (last : Option ListingBlock) (s : Layout) : Prop where
  closed : List.Forall₂ (ClosedBlock.Realizes options s.globals blocks) s.blocks blocks
  opened : Option.Rel (Block.Realizes options) s.opened last
  location : ∀ lb, last = some lb → s.location = lb.origin + lb.statementCells.length
  -- The name of a block is global as soon as the block is closed, and not before.
  globals : ∀ name w, (name, w) ∈ s.globals ↔
    (∃ b ∈ s.blocks, b.name = name ∧ b.entry = w) ∨
      (options.labelScope = false ∧ ∃ lb ∈ blocks ++ last.toList, (name, w) ∈ lb.labels)
  globalsNodup : (s.globals.map (·.1)).Nodup

section realizes

variable {options : AssemblyOptions} {blocks : List ListingBlock} {last : Option ListingBlock}
  {s t : Layout} {line : Nat} {b : Block} {lb : ListingBlock}

theorem Names.block {c : ListingBlock} {a : Nat} (hown : ∀ l ∈ lb.body, l.label ≠ some c.name)
    (hc : c ∈ blocks) (h : c.EntersAt options blocks a) : Names options blocks lb c.name a := by
  unfold ListingBlock.EntersAt at h
  cases hentry : c.entryLabel with
  | none =>
    rw [hentry] at h
    rw [h]
    exact .origin hown hc hentry
  | some label =>
    rw [hentry] at h
    exact .entry hown hc hentry h

theorem Names.append {name : String} {a : Nat} (h : Names options blocks lb name a)
    (more : List ListingBlock) : Names options (blocks ++ more) lb name a := by
  induction h with
  | own hl hlabel => exact .own hl hlabel
  | shared hscope hc hl hlabel => exact .shared hscope (List.mem_append_left _ hc) hl hlabel
  | origin hown hc hentry => exact .origin hown (List.mem_append_left _ hc) hentry
  | entry hown hc hentry _ ih => exact .entry hown (List.mem_append_left _ hc) hentry ih

theorem ListingBlock.EntersAt.append {a : Nat} (h : lb.EntersAt options blocks a)
    (more : List ListingBlock) : lb.EntersAt options (blocks ++ more) a := by
  unfold EntersAt at h ⊢
  split at h
  · exact h
  · exact h.append more

theorem ListingBlock.mem_labels {name : String} {w : Word} :
    (name, w) ∈ lb.labels ↔ ∃ l ∈ lb.body, l.label = some name ∧ UInt16.ofNat l.location = w := by
  simp [labels]

/-- The address of a label is the location counter at its line. -/
theorem Block.Realizes.toNat_ofNat (hb : b.Realizes options lb) {l : ListingLine} (hl : l ∈ lb.body)
    {name : String} (hlabel : l.label = some name) :
    (UInt16.ofNat l.location).toNat = l.location :=
  UInt16.toNat_ofNat_of_lt' (hb.labelsFree l hl (by simp [hlabel]))

theorem exists_of_forall₂ {α β : Type} {R : α → β → Prop} {xs : List α} {ys : List β}
    (h : List.Forall₂ R xs ys) {x : α} (hx : x ∈ xs) : ∃ y ∈ ys, R x y := by
  induction h with
  | nil => cases hx
  | cons hr _ ih =>
    rcases List.mem_cons.mp hx with rfl | hrest
    · exact ⟨_, List.mem_cons_self, hr⟩
    · obtain ⟨y, hy, hr⟩ := ih hrest
      exact ⟨y, List.mem_cons_of_mem _ hy, hr⟩

namespace Layout.Realizes

theorem exists_listed (hs : s.Realizes options blocks last) {c : ClosedBlock}
    (hc : c ∈ s.blocks) : ∃ lc ∈ blocks, c.Realizes options s.globals blocks lc :=
  exists_of_forall₂ hs.closed hc

theorem exists_closed (hs : s.Realizes options blocks last) (hlb : lb ∈ blocks) :
    ∃ c ∈ s.blocks, c.Realizes options s.globals blocks lb :=
  exists_of_forall₂ (R := fun lb c => ClosedBlock.Realizes options s.globals blocks c lb)
    (List.Forall₂.flip hs.closed) hlb

theorem exists_block (hs : s.Realizes options blocks last) (hlb : lb ∈ blocks ++ last.toList) :
    ∃ b, Block.Realizes options b lb := by
  rcases List.mem_append.mp hlb with hclosed | hopened
  · obtain ⟨c, -, hc⟩ := hs.exists_closed hclosed
    exact ⟨c.toBlock, hc.toRealizes⟩
  · have hrel := hs.opened
    rw [Option.mem_toList] at hopened
    rw [hopened] at hrel
    generalize s.opened = opened at hrel
    cases hrel with
    | some hb => exact ⟨_, hb⟩

/-- Without scopes a label of any block is found in all of them. -/
theorem resolve_shared (hs : s.Realizes options blocks last) (hb : b.Realizes options lb)
    (hscope : options.labelScope = false) {lc : ListingBlock} (hlc : lc ∈ blocks ++ last.toList)
    {l : ListingLine} (hl : l ∈ lc.body) {name : String} (hlabel : l.label = some name) :
    b.resolve s.globals name = some (.ofNat l.location) := by
  have hmem : (name, UInt16.ofNat l.location) ∈ s.globals :=
    (hs.globals _ _).mpr
      (Or.inr ⟨hscope, lc, hlc, ListingBlock.mem_labels.mpr ⟨l, hl, hlabel, rfl⟩⟩)
  have hlabels : b.labels = [] := by simp [hb.labels, hscope]
  rw [Block.resolve, hlabels, lookup_of_mem hs.globalsNodup hmem]
  rfl

theorem resolve_own (hs : s.Realizes options blocks last) (hb : b.Realizes options lb)
    (hlb : lb ∈ blocks ++ last.toList) {l : ListingLine} (hl : l ∈ lb.body) {name : String}
    (hlabel : l.label = some name) : b.resolve s.globals name = some (.ofNat l.location) := by
  cases hscope : options.labelScope with
  | false => exact hs.resolve_shared hb hscope hlb hl hlabel
  | true =>
    have hmem : (name, UInt16.ofNat l.location) ∈ b.labels := by
      rw [hb.labels, hscope]
      exact List.mem_reverse.mpr (ListingBlock.mem_labels.mpr ⟨l, hl, hlabel, rfl⟩)
    rw [Block.resolve, lookup_of_mem hb.labelsNodup hmem]
    rfl

/-- A name of no label of the block is looked up among the global ones. -/
theorem resolve_foreign (hb : b.Realizes options lb) {name : String}
    (hown : ∀ l ∈ lb.body, l.label ≠ some name) (globals : Symbols) :
    b.resolve globals name = globals.lookup name := by
  have hnone : b.labels.lookup name = none := by
    rw [List.lookup_eq_none_iff]
    rintro ⟨other, w⟩ hmem
    rw [hb.labels] at hmem
    split at hmem
    · obtain ⟨l, hl, hlabel, -⟩ := ListingBlock.mem_labels.mp (List.mem_reverse.mp hmem)
      apply bne_iff_ne.mpr
      rintro rfl
      exact hown l hl hlabel
    · cases hmem
  rw [Block.resolve, hnone, Option.none_or]

/-- What a name resolves to is what it means. -/
theorem names_of_resolve {name : String} {w : Word} (hs : s.Realizes options blocks last)
    (hb : b.Realizes options lb) (hlb : lb ∈ blocks ++ last.toList)
    (h : b.resolve s.globals name = some w) :
    Names options (blocks ++ last.toList) lb name w.toNat := by
  by_cases hown : ∃ l ∈ lb.body, l.label = some name
  · obtain ⟨l, hl, hlabel⟩ := hown
    rw [hs.resolve_own hb hlb hl hlabel] at h
    cases h
    rw [hb.toNat_ofNat hl hlabel]
    exact .own hl hlabel
  · have hforeign : ∀ l ∈ lb.body, l.label ≠ some name :=
      fun l hl hlabel => hown ⟨l, hl, hlabel⟩
    rw [resolve_foreign hb hforeign] at h
    rcases (hs.globals name w).mp (Symbols.mem_of_lookup h) with
      ⟨c, hc, rfl, rfl⟩ | ⟨hscope, lc, hlc, hmem⟩
    · obtain ⟨lc, hlc, hrealizes⟩ := hs.exists_listed hc
      rw [hrealizes.name] at hforeign ⊢
      exact .block hforeign (List.mem_append_left _ hlc) (hrealizes.enters.append _)
    · obtain ⟨l, hl, hlabel, rfl⟩ := ListingBlock.mem_labels.mp hmem
      obtain ⟨c, hrealizes⟩ := hs.exists_block hlc
      rw [hrealizes.toNat_ofNat hl hlabel]
      exact .shared hscope hlc hl hlabel

theorem entersAt {entry : Word} (hs : s.Realizes options blocks (some lb))
    (hb : b.Realizes options lb) (hentry : b.entry? s.globals = some entry) :
    lb.EntersAt options (blocks ++ [lb]) entry.toNat := by
  unfold Block.entry? at hentry
  unfold ListingBlock.EntersAt
  rw [← hb.entryLabel]
  cases hlabel : b.entryLabel with
  | none =>
    simp only [hlabel, Option.some.injEq] at hentry
    rw [← hentry, hb.origin, UInt16.toNat_ofNat_of_lt' hb.originFree]
  | some label =>
    simp only [hlabel] at hentry
    exact hs.names_of_resolve hb (by simp) hentry

end Layout.Realizes

theorem ListingBlock.labels_addLine (lb : ListingBlock) (l : ListingLine) :
    (lb.addLine l).labels =
      lb.labels ++ (l.label.map fun name => (name, UInt16.ofNat l.location)).toList := by
  cases hlabel : l.label <;> simp [labels, addLine, hlabel]

theorem Layout.realizes_empty (options : AssemblyOptions) : Layout.Realizes options [] none {} :=
  ⟨.nil, .none, nofun, by simp [Layout.blocks], .nil⟩

/-- A line that is accepted in a block is a line of its listing. -/
theorem Block.Realizes.grow {label : Option String} {content : Content} {labels globals : Symbols}
    (hb : b.Realizes options lb) (hdefines : s.Defines options b label labels globals) :
    (Block.grow { b with labels } line s.location content).Realizes options
      (lb.addLine ⟨line, s.location, label, content⟩) := by
  have hlabels : labels =
      (if options.labelScope then (lb.addLine ⟨line, s.location, label, content⟩).labels.reverse
        else []) ∧ (labels.map (·.1)).Nodup ∧ (label ≠ none → s.location < memorySize) := by
    rw [ListingBlock.labels_addLine, List.reverse_append]
    cases hdefines with
    | none => exact ⟨by simpa using hb.labels, hb.labelsNodup, by simp⟩
    | own hscope hfree hlabels =>
      obtain ⟨hfresh, rfl⟩ := Symbols.define_eq_ok.mp hlabels
      refine ⟨?_, Symbols.nodup_cons_of_define hb.labelsNodup hfresh, fun _ => hfree⟩
      rw [hb.labels]
      simp [hscope]
    | shared hscope hfree hglobals =>
      refine ⟨?_, hb.labelsNodup, fun _ => hfree⟩
      rw [hb.labels]
      simp [hscope]
  obtain ⟨hlabels, hnodup, hfree⟩ := hlabels
  rw [Block.grow_eq]
  refine ⟨hb.name, hb.entryLabel, hb.origin, hb.originFree, hlabels, hnodup, ?_, ?_, ?_⟩
  · intro l hl
    rcases List.mem_append.mp hl with hold | hnew
    · exact hb.labelsFree l hold
    · obtain rfl := List.mem_singleton.mp hnew
      exact hfree
  · rw [Array.toList_append, hb.pieces]
    simp [ListingBlock.addLine, ListingLine.pieces]
  · show (Block.note { b with labels } content.cells).literals = _
    rw [Block.note_literals (b := { b with labels }) hb.literals, ListingBlock.literals,
      ListingBlock.statementCells_addLine, List.filterMap_append]

theorem ClosedBlock.Realizes.define {globals : Symbols} {name : String} {address : Word}
    {b : ClosedBlock} (hb : b.Realizes options globals blocks lb)
    (hfresh : globals.lookup name = none) :
    b.Realizes options ((name, address) :: globals) blocks lb :=
  ⟨hb.toRealizes, Block.entry?_define hfresh hb.entry, hb.enters, hb.pool⟩

theorem ClosedBlock.Realizes.append {globals : Symbols} {b : ClosedBlock}
    (hb : b.Realizes options globals blocks lb) (more : List ListingBlock) :
    b.Realizes options globals (blocks ++ more) lb :=
  ⟨hb.toRealizes, hb.entry, hb.enters.append more, hb.pool⟩

/-- The tables of labels grow, and all that resolved before still does. -/
theorem Layout.Defines.realizes {label : Option String} {labels globals : Symbols}
    {b : Block} {cb : ClosedBlock} (hdefines : s.Defines options b label labels globals)
    (h : cb.Realizes options s.globals blocks lb) : cb.Realizes options globals blocks lb := by
  cases hdefines with
  | none | own => exact h
  | shared _ _ hglobals =>
    obtain ⟨hfresh, rfl⟩ := Symbols.define_eq_ok.mp hglobals
    exact h.define hfresh

namespace Layout

theorem Realizes.start {name : String} {entryLabel : Option String}
    (hs : s.Realizes options blocks none) (hfree : s.location < memorySize) :
    Layout.Realizes options blocks (some ⟨name, entryLabel, s.location, []⟩) { s with
      opened := some { name, startLine := line, origin := .ofNat s.location, entryLabel }
      started := true } := by
  have hblock : Block.Realizes options
      { name, startLine := line, origin := .ofNat s.location, entryLabel }
      ⟨name, entryLabel, s.location, []⟩ := by
    refine ⟨rfl, rfl, rfl, hfree, ?_, .nil, by simp, rfl, rfl⟩
    simp [ListingBlock.labels]
  refine ⟨hs.closed, .some hblock, ?_, ?_, hs.globalsNodup⟩
  · rintro lb ⟨⟩
    rfl
  · intro name w
    show (name, w) ∈ s.globals ↔ (∃ b ∈ s.blocks, b.name = name ∧ b.entry = w) ∨ _
    simpa [ListingBlock.labels] using hs.globals name w

theorem Realizes.body {label : Option String} {content : Content} {labels globals : Symbols}
    (hs : s.Realizes options blocks (some lb)) (hb : b.Realizes options lb)
    (hdefines : s.Defines options b label labels globals) :
    Layout.Realizes options blocks (some (lb.addLine ⟨line, s.location, label, content⟩)) { s with
      globals
      opened := some (Block.grow { b with labels } line s.location content)
      location := s.location + content.cells.length } := by
  refine ⟨hs.closed.imp fun _ _ h => hdefines.realizes h, .some (hb.grow hdefines), ?_, ?_, ?_⟩
  · rintro _ ⟨⟩
    rw [ListingBlock.statementCells_addLine, List.length_append, ← Nat.add_assoc]
    exact congrArg (· + content.cells.length) (hs.location lb rfl)
  · intro name w
    have hold := hs.globals name w
    have hlisted : (∃ lb' ∈ blocks ++ [lb.addLine ⟨line, s.location, label, content⟩],
          (name, w) ∈ lb'.labels) ↔
        (∃ lb' ∈ blocks ++ [lb], (name, w) ∈ lb'.labels) ∨
          label = some name ∧ w = UInt16.ofNat s.location := by
      have hnew : (name, w) ∈ (label.map fun name => (name, UInt16.ofNat s.location)).toList ↔
          label = some name ∧ w = UInt16.ofNat s.location := by
        cases label <;> simp [eq_comm]
      simp only [ListingBlock.labels_addLine, List.mem_append, List.mem_singleton, or_and_right,
        exists_or, exists_eq_left, hnew, or_assoc]
    show (name, w) ∈ globals ↔ (∃ b ∈ s.blocks, b.name = name ∧ b.entry = w) ∨
      (options.labelScope = false ∧
        ∃ lb' ∈ blocks ++ [lb.addLine ⟨line, s.location, label, content⟩], (name, w) ∈ lb'.labels)
    rw [hlisted]
    cases hdefines with
    | none => simpa using hold
    | own hscope => simpa [hscope] using hold
    | shared hscope _ hglobals =>
      obtain ⟨-, rfl⟩ := Symbols.define_eq_ok.mp hglobals
      rw [List.mem_cons, hold]
      simp only [hscope, true_and, Option.toList_some, Prod.mk.injEq, Option.some.injEq,
        eq_comm (a := name)]
      rw [or_comm, or_assoc]
  · cases hdefines with
    | none | own => exact hs.globalsNodup
    | shared _ _ hglobals =>
      obtain ⟨hfresh, rfl⟩ := Symbols.define_eq_ok.mp hglobals
      exact Symbols.nodup_cons_of_define hs.globalsNodup hfresh

theorem Realizes.finish {entry : Word} {globals : Symbols}
    (hs : s.Realizes options blocks (some lb)) (hb : b.Realizes options lb)
    (hentry : b.entry? s.globals = some entry)
    (hglobals : s.globals.define b.name entry = .ok globals) :
    Layout.Realizes options (blocks ++ [lb]) none { s with
      globals
      opened := none
      closed := s.closed.push { b with entry, pool := placePool s.location b.literals }
      location := s.location + b.literals.flatten.length } := by
  obtain ⟨hfresh, rfl⟩ := Symbols.define_eq_ok.mp hglobals
  have hblock : ClosedBlock.Realizes options ((b.name, entry) :: s.globals) (blocks ++ [lb])
      { b with entry, pool := placePool s.location b.literals } lb := by
    refine ⟨hb, Block.entry?_define hfresh hentry, hs.entersAt hb hentry, ?_⟩
    rw [hs.location lb rfl, hb.literals]
  have hclosed : List.Forall₂ (ClosedBlock.Realizes options ((b.name, entry) :: s.globals)
      (blocks ++ [lb])) s.blocks blocks := hs.closed.imp fun _ _ h => (h.define hfresh).append [lb]
  refine ⟨?_, .none, nofun, ?_, Symbols.nodup_cons_of_define hs.globalsNodup hfresh⟩
  · rw [Layout.blocks, Array.toList_push]
    exact List.rel_append hclosed (.cons hblock .nil)
  · intro name w
    have hold := hs.globals name w
    have hclosed : (∃ c ∈ Layout.blocks { s with
          globals := (b.name, entry) :: s.globals
          opened := none
          closed := s.closed.push { b with entry, pool := placePool s.location b.literals }
          location := s.location + b.literals.flatten.length }, c.name = name ∧ c.entry = w) ↔
        (∃ c ∈ s.blocks, c.name = name ∧ c.entry = w) ∨ b.name = name ∧ entry = w := by
      simp [Layout.blocks, or_and_right, exists_or]
    rw [hclosed, List.mem_cons, hold]
    simp only [Option.toList_some, Option.toList_none, List.append_nil, Prod.mk.injEq,
      eq_comm (a := name), eq_comm (a := w)]
    rw [or_comm, or_right_comm]

/-- Lines at which nothing is wrong are listed, and laid out as they are listed. -/
theorem Realizes.addLines {texts : List (List Char)} (hs : s.Realizes options blocks last)
    (h : (s.addLines options line texts).diagnostics = #[])
    (hend : (s.addLines options line texts).opened = none) :
    ∃ new, listFrom options last s.location line texts = some new ∧
      (s.addLines options line texts).Realizes options (blocks ++ new) none := by
  -- By induction on the lines. What a line does is one of four cases, and each keeps the invariant.
  induction texts generalizing s line blocks last with
  | nil =>
    have hlast : last = none := by
      have hopened := hs.opened
      rw [show s.opened = none from hend] at hopened
      cases hopened
      rfl
    subst hlast
    exact ⟨[], rfl, by rwa [List.append_nil]⟩
  | cons text rest ih =>
    obtain ⟨-, row, hrow, htakes⟩ := takes_of_addLine (diagnostics_of_addLines h)
    rw [Layout.addLines] at h hend ⊢
    have hopened := hs.opened
    generalize s.addLine options line text = t at h hend htakes ⊢
    cases htakes with
    | blank =>
      obtain ⟨new, hnew, hrest⟩ := ih hs h hend
      exact ⟨new, (Lists.blank hrow (lists_of_listFrom hnew)).listFrom_eq, hrest⟩
    | start name entryLabel hnone hfree =>
      rw [hnone] at hopened
      cases hopened
      obtain ⟨new, hnew, hrest⟩ := ih (hs.start hfree) h hend
      exact ⟨new, (Lists.start hrow (lists_of_listFrom hnew)).listFrom_eq, hrest⟩
    | body b label content labels globals hb hdefines =>
      rw [hb] at hopened
      cases hopened with
      | some hblock =>
        obtain ⟨new, hnew, hrest⟩ := ih (hs.body hblock hdefines) h hend
        exact ⟨new, (Lists.body hrow (lists_of_listFrom hnew)).listFrom_eq, hrest⟩
    | finish b entry globals hb hentry hglobals =>
      rw [hb] at hopened
      cases hopened with
      | @some _ lb hblock =>
        obtain ⟨new, hnew, hrest⟩ := ih (hs.finish hblock hentry hglobals) h hend
        rw [hblock.literals] at hnew
        rw [List.append_assoc] at hrest
        exact ⟨lb :: new, (Lists.finish hrow (lists_of_listFrom hnew)).listFrom_eq, hrest⟩

end Layout

end realizes

end Comet.Assembly
