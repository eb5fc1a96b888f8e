import Comet.Proofs.Assembly.Placement
import Comet.Proofs.Assembly.Reported

namespace Comet

namespace Assembly

/-- The name that a row defines. -/
def Row.label : Row → Option String
  | start name _ => some name
  | body label _ => label
  | finish => none

/-- The tables define the same names, perhaps with other addresses. -/
def SameNames (t t' : Symbols) : Prop := t'.map (·.1) = t.map (·.1)

section names

variable {t t' u u' : Symbols} {name : String} {a a' : Word}

theorem isSome_lookup_iff : (t.lookup name).isSome = true ↔ name ∈ t.map (·.1) := by
  induction t with
  | nil => simp
  | cons entry rest ih =>
    rw [List.lookup_cons, List.map_cons, List.mem_cons, ← ih]
    by_cases h : name = entry.1
    · simp [h]
    · simp [h, beq_eq_false_iff_ne.mpr h]

theorem SameNames.isSome_lookup_iff (h : SameNames t t') :
    (t'.lookup name).isSome = true ↔ (t.lookup name).isSome = true := by
  rw [Assembly.isSome_lookup_iff, Assembly.isSome_lookup_iff, h]

theorem SameNames.define (h : SameNames t t') (hu : t.define name a = .ok u)
    (hu' : t'.define name a' = .ok u') : SameNames u u' := by
  obtain ⟨-, rfl⟩ := Symbols.define_eq_ok.mp hu
  obtain ⟨-, rfl⟩ := Symbols.define_eq_ok.mp hu'
  rw [SameNames, List.map_cons, List.map_cons, h]

theorem isSome_lookup_define (hu : t.define name a = .ok u) {other : String} :
    (u.lookup other).isSome = true ↔ other = name ∨ (t.lookup other).isSome = true := by
  obtain ⟨-, rfl⟩ := Symbols.define_eq_ok.mp hu
  rw [isSome_lookup_iff, isSome_lookup_iff, List.map_cons, List.mem_cons]

end names

/-- A word of the block stands for a label of this name. -/
def Block.Uses (b : Block) (name : String) : Prop :=
  Cell.label name ∈ b.pieces.toList.flatMap (·.cells)

section grow

variable {b : Block} {line location : Nat} {content : Content} {name : String}

@[simp] theorem Block.grow_name : (b.grow line location content).name = b.name := by
  rw [grow_eq]

@[simp] theorem Block.grow_entryLabel :
    (b.grow line location content).entryLabel = b.entryLabel := by
  rw [grow_eq]

@[simp] theorem Block.grow_labels : (b.grow line location content).labels = b.labels := by
  rw [grow_eq]

@[simp] theorem Block.grow_literals :
    (b.grow line location content).literals = (b.note content.cells).literals := by
  rw [grow_eq]

theorem Block.uses_grow :
    (b.grow line location content).Uses name ↔ b.Uses name ∨ .label name ∈ content.cells := by
  rw [Uses, Uses, grow_eq]
  simp only [Array.toList_append, List.flatMap_append, List.mem_append,
    Content.flatMap_cells_pieces]

end grow

theorem Block.isSome_resolve_iff {b : Block} {globals : Symbols} {name : String} :
    (b.resolve globals name).isSome = true ↔
      (b.labels.lookup name).isSome = true ∨ (globals.lookup name).isSome = true := by
  rw [resolve, Option.isSome_or, Bool.or_eq_true]

/-- The name is that of the block, or a label in its table. -/
def Layout.Has (options : AssemblyOptions) (s : Layout) (b : Block) (name : String) : Prop :=
  b.name = name ∨ ((s.tableOf options b).lookup name).isSome = true

/-- What the blocks differ in is where things are, and that the second may use a few more names. -/
structure Block.Resembles (extra : String → Prop) (b b' : Block) : Prop where
  name : b'.name = b.name
  entryLabel : b'.entryLabel = b.entryLabel
  literals : b'.literals = b.literals
  labels : SameNames b.labels b'.labels
  uses : ∀ name, b'.Uses name → b.Uses name ∨ extra name

theorem Block.Resembles.imp {b b' : Block} {extra more : String → Prop} (h : b.Resembles extra b')
    (hmore : ∀ name, extra name → more name) : b.Resembles more b' :=
  { h with uses := fun name hname => (h.uses name hname).imp_right (hmore name) }

theorem Block.Resembles.grow {b b' : Block} {extra : String → Prop} {labels labels' : Symbols}
    {line line' location location' : Nat} (h : b.Resembles extra b')
    (hlabels : SameNames labels labels') (content : Content) :
    (Block.grow { b with labels } line location content).Resembles extra
      (Block.grow { b' with labels := labels' } line' location' content) where
  name := by simpa using h.name
  entryLabel := by simpa using h.entryLabel
  literals := by simpa using note_literals_congr (by exact h.literals) content.cells
  labels := by simpa using hlabels
  uses name hname := by
    rw [uses_grow] at hname ⊢
    rcases hname with hold | hnew
    · exact (h.uses name hold).imp_left Or.inl
    · exact Or.inl (Or.inr hnew)

/-- The same of layouts. What a closed block uses in addition are names that it has, and the open
block may be about to get some of them. -/
structure Layout.Resembles (options : AssemblyOptions) (extra : String → Prop) (s s' : Layout) :
    Prop where
  opened : Option.Rel
    (fun b b' => b.Resembles (fun name => extra name ∨ s.Has options b name) b') s.opened s'.opened
  closed : List.Forall₂
    (fun b b' : ClosedBlock => b.toBlock.Resembles (s.Has options b.toBlock) b'.toBlock)
    s.blocks s'.blocks
  globals : SameNames s.globals s'.globals
  started : s'.started = s.started

namespace Layout

variable {options : AssemblyOptions} {extra : String → Prop} {s s' t t' : Layout} {n n' : Nat}
  {b b' : Block} {name : String}

theorem Has.mono {c : Block} (hname : c.name = b.name)
    (hlabels : ∀ name, (b.labels.lookup name).isSome = true →
      (c.labels.lookup name).isSome = true)
    (hglobals : ∀ name, (s.globals.lookup name).isSome = true →
      (t.globals.lookup name).isSome = true) (h : s.Has options b name) :
    t.Has options c name := by
  refine h.imp (fun h => hname.trans h) fun h => ?_
  unfold tableOf at h ⊢
  by_cases hscope : options.labelScope = true
  · rw [if_pos hscope] at h ⊢
    exact hlabels name h
  · rw [if_neg hscope] at h ⊢
    exact hglobals name h

theorem Resembles.tableOf (hs : s.Resembles options extra s') (hb : SameNames b.labels b'.labels) :
    SameNames (s.tableOf options b) (s'.tableOf options b') := by
  unfold Layout.tableOf
  split
  · exact hb
  · exact hs.globals

theorem Resembles.isSome_resolve_iff (hs : s.Resembles options extra s')
    (hb : SameNames b.labels b'.labels) :
    (b'.resolve s'.globals name).isSome = true ↔ (b.resolve s.globals name).isSome = true := by
  rw [Block.isSome_resolve_iff, Block.isSome_resolve_iff, hb.isSome_lookup_iff,
    hs.globals.isSome_lookup_iff]

/-- Of the two layouts either both have an open block or neither has. -/
theorem Resembles.exists_opened (hs : s.Resembles options extra s') (h : s'.opened = some b') :
    ∃ b, s.opened = some b ∧ b.Resembles (fun name => extra name ∨ s.Has options b name) b' := by
  have hrel := hs.opened
  rw [h] at hrel
  generalize s.opened = opened at hrel
  cases hrel with
  | some hb => exact ⟨_, rfl, hb⟩

theorem Resembles.opened_none (hs : s.Resembles options extra s') (h : s'.opened = none) :
    s.opened = none := by
  have hrel := hs.opened
  rw [h] at hrel
  generalize s.opened = opened at hrel
  cases hrel
  rfl

/-- What the second layout declines, the first one does, unless it is for want of room. -/
theorem Declines.of_resembles {row : Row} {e : SourceError} (hs : s.Resembles options extra s')
    (h : s'.Declines options n' row e) : e = .memoryFull ∨ s.Declines options n row e := by
  cases h with
  | nested name entryLabel hopened =>
    obtain ⟨b, hb, hsame⟩ := hs.exists_opened hopened
    rw [hsame.name]
    exact Or.inr (.nested name entryLabel hb)
  | startless | unlabelled | roomless | poolless => exact Or.inl rfl
  | outside label content opcode hopened =>
    exact Or.inr (.outside label content opcode (hs.opened_none hopened))
  | duplicate name content hopened hdefined =>
    obtain ⟨b, hb, hsame⟩ := hs.exists_opened hopened
    rw [(hs.tableOf hsame.labels).isSome_lookup_iff] at hdefined
    exact Or.inr (.duplicate name content hb hdefined)
  | unopened hopened => exact Or.inr (.unopened (hs.opened_none hopened))
  | entryless hopened hlabel hundefined =>
    obtain ⟨b, hb, hsame⟩ := hs.exists_opened hopened
    rw [hsame.entryLabel] at hlabel
    refine Or.inr (.entryless hb hlabel ?_)
    rw [← Option.not_isSome_iff_eq_none] at hundefined ⊢
    rwa [hs.isSome_resolve_iff hsame.labels] at hundefined
  | nameless hopened hdefined =>
    obtain ⟨b, hb, hsame⟩ := hs.exists_opened hopened
    rw [hsame.name] at hdefined ⊢
    exact Or.inr (.nameless hb (hs.globals.isSome_lookup_iff.mp hdefined))

theorem Defines.sameNames {c c' : Block} {label : Option String}
    {labels labels' globals globals' : Symbols} (hs : s.Resembles options extra s')
    (hc : SameNames c.labels c'.labels) (h : s.Defines options c label labels globals)
    (h' : s'.Defines options c' label labels' globals') :
    SameNames labels labels' ∧ SameNames globals globals' := by
  cases h with
  | none =>
    cases h'
    exact ⟨hc, hs.globals⟩
  | own hscope _ hlabels =>
    cases h' with
    | own _ _ hlabels' => exact ⟨hc.define hlabels hlabels', hs.globals⟩
    | shared hscope' => exact absurd (hscope.symm.trans hscope') nofun
  | shared hscope _ hglobals =>
    cases h' with
    | own hscope' => exact absurd (hscope.symm.trans hscope') nofun
    | shared _ _ hglobals' => exact ⟨hc, hs.globals.define hglobals hglobals'⟩

theorem Defines.labels_mono {label : Option String} {labels globals : Symbols}
    (h : s.Defines options b label labels globals) (name : String)
    (hname : (b.labels.lookup name).isSome = true) : (labels.lookup name).isSome = true := by
  cases h with
  | none | shared => exact hname
  | own _ _ hlabels => exact (isSome_lookup_define hlabels).mpr (Or.inr hname)

/-- Names that are defined stay defined. -/
theorem Takes.globals_mono {row : Option Row} (h : s.Takes options n row t) (name : String)
    (hname : (s.globals.lookup name).isSome = true) : (t.globals.lookup name).isSome = true := by
  cases h with
  | blank | start => exact hname
  | body b label content labels globals hopened hdefines =>
    cases hdefines with
    | none | own => exact hname
    | shared _ _ hglobals => exact (isSome_lookup_define hglobals).mpr (Or.inr hname)
  | finish b entry globals hopened hentry hglobals =>
    exact (isSome_lookup_define hglobals).mpr (Or.inr hname)

/-- A line that both layouts take keeps them alike. A block is not closed as long as a name that it
uses in addition is still to become a label of it. -/
theorem Takes.resembles {row : Option Row} (h : s.Takes options n row t)
    (h' : s'.Takes options n' row t') (hs : s.Resembles options extra s')
    (hfinish : row = some .finish → ∀ name, ¬ extra name) : t.Resembles options extra t' := by
  have hstay := h.globals_mono
  have hmono {b : Block} (name : String) (hname : s.Has options b name) :
      t.Has options b name := hname.mono rfl (fun _ => id) hstay
  have hclosed : List.Forall₂
      (fun b b' : ClosedBlock => b.toBlock.Resembles (t.Has options b.toBlock) b'.toBlock)
      s.blocks s'.blocks := hs.closed.imp fun b b' hb => hb.imp hmono
  cases h with
  | blank =>
    cases h'
    exact hs
  | start name entryLabel hopened =>
    cases h'
    refine ⟨.some ⟨rfl, rfl, rfl, rfl, fun name hname => ?_⟩, hclosed, hs.globals, rfl⟩
    cases hname
  | body b label content labels globals hopened hdefines =>
    cases h' with
    | body b' _ _ labels' globals' hopened' hdefines' =>
      obtain ⟨c, hc, hsame⟩ := hs.exists_opened hopened'
      obtain rfl : b = c := Option.some.inj (hopened.symm.trans hc)
      obtain ⟨hlabels, hglobals⟩ := hdefines.sameNames hs hsame.labels hdefines'
      refine ⟨.some ?_, hclosed, hglobals, hs.started⟩
      refine (hsame.grow hlabels content).imp fun name => Or.imp_right fun hname => ?_
      exact hname.mono (by simp) (by simpa using hdefines.labels_mono) hstay
  | finish b entry globals hopened hentry hglobals =>
    cases h' with
    | finish b' entry' globals' hopened' _ hglobals' =>
      obtain ⟨c, hc, hsame⟩ := hs.exists_opened hopened'
      obtain rfl : b = c := Option.some.inj (hopened.symm.trans hc)
      rw [hsame.name] at hglobals'
      refine ⟨.none, ?_, hs.globals.define hglobals hglobals', hs.started⟩
      show List.Forall₂ _ (s.closed.push _).toList (s'.closed.push _).toList
      rw [Array.toList_push, Array.toList_push]
      refine List.rel_append hclosed (.cons (hsame.imp fun name hname => ?_) .nil)
      exact hname.elim (fun hextra => absurd hextra (hfinish rfl name)) (hmono name)

/-- A line that may be declined for want of room only is taken, or the want of room is reported. -/
theorem taken_or_full {text : List Char} {row : Option Row} (hrow : Understood options text row)
    (h : ∀ r ∈ row, ∀ e, s.Declines options n r e → e = .memoryFull) :
    s.Takes options n row (s.addLine options n text) ∨
      ⟨n, SourceError.memoryFull.message⟩ ∈ (s.addLine options n text).diagnostics.toList := by
  rcases Pass.accepts_or_refuses (Pass.sourceLine options n text) s with
    ⟨u, t, haccepts⟩ | ⟨e, hrefuses⟩
  · obtain ⟨row', hrow', htakes⟩ := Pass.understood_of_sourceLine haccepts
    obtain rfl : row = row' := Option.some.inj (hrow.row.symm.trans hrow'.row)
    rw [addLine_of_takes hrow htakes]
    exact Or.inl htakes
  · obtain ⟨r, rfl, hdeclines⟩ := Pass.declines_of_sourceLine hrow hrefuses
    obtain rfl := h r rfl e hdeclines
    rw [diagnostics_of_refuses hrefuses, Array.toList_push]
    exact Or.inr (List.mem_append_right _ (List.mem_singleton_self _))

/-- Nothing has been reported for want of room. -/
def Fits (s : Layout) : Prop :=
  ∀ d ∈ s.diagnostics.toList, d.message ≠ SourceError.memoryFull.message

theorem Fits.of_addLines {texts : List (List Char)} (h : (s.addLines options n texts).Fits) :
    s.Fits := fun d hd => h d (mem_diagnostics_addLines hd)

/-- Lines that the first layout takes are taken by the second, if there is room for them. -/
theorem Resembles.addLines {texts : List (List Char)} (hs : s.Resembles options extra s')
    (hnone : (s.addLines options n texts).diagnostics = #[]) (hnone' : s'.diagnostics = #[])
    (hfits : (s'.addLines options n' texts).Fits)
    (hfinish : (∀ text ∈ texts, Row.ofLine? options text ≠ some (some .finish)) ∨
      ∀ name, ¬ extra name) :
    (s'.addLines options n' texts).diagnostics = #[] ∧
      (s.addLines options n texts).Resembles options extra (s'.addLines options n' texts) := by
  induction texts generalizing s s' n n' with
  | nil => exact ⟨hnone', hs⟩
  | cons text rest ih =>
    obtain ⟨row, hrow, htakes⟩ := understood_of_addLine (diagnostics_of_addLines hnone)
    have hdeclines : ∀ r ∈ row, ∀ e, s'.Declines options n' r e → e = .memoryFull := by
      rintro r rfl e hdeclines
      exact (hdeclines.of_resembles hs).resolve_right htakes.not_declines
    have hrest : ((s'.addLine options n' text).addLines options (n' + 1) rest).Fits := hfits
    have htakes' := (taken_or_full hrow hdeclines).resolve_right fun hfull =>
      hrest.of_addLines _ hfull rfl
    have hclosing : row = some .finish → ∀ name, ¬ extra name := by
      rintro rfl
      exact hfinish.resolve_left fun h => h text List.mem_cons_self hrow.row
    exact ih (htakes.resembles htakes' hs hclosing) hnone (htakes'.diagnostics.trans hnone') hfits
      (hfinish.imp_left fun h text hmem => h text (List.mem_cons_of_mem _ hmem))

/-- The name is one that the open block has. -/
def OpenHas (options : AssemblyOptions) (s : Layout) (name : String) : Prop :=
  ∃ b, s.opened = some b ∧ s.Has options b name

/-- A row that does not close the block leaves it with the names that it had and with that of the
row. -/
theorem Takes.openHas {row : Option Row} (h : s.Takes options n row t)
    (hrow : row ≠ some .finish)
    (hname : s.OpenHas options name ∨ ∃ r, row = some r ∧ r.label = some name) :
    t.OpenHas options name := by
  have hstay := h.globals_mono
  cases h with
  | blank =>
    rcases hname with hold | ⟨r, ⟨⟩, -⟩
    exact hold
  | start own entryLabel hopened =>
    rcases hname with ⟨c, hc, -⟩ | ⟨_, ⟨⟩, hlabel⟩
    · exact absurd (hopened.symm.trans hc) nofun
    · exact ⟨_, rfl, Or.inl (Option.some.inj hlabel)⟩
  | body b label content labels globals hopened hdefines =>
    refine ⟨_, rfl, ?_⟩
    rcases hname with ⟨c, hc, hhas⟩ | ⟨_, ⟨⟩, rfl⟩
    · obtain rfl : b = c := Option.some.inj (hopened.symm.trans hc)
      exact hhas.mono (by simp) (by simpa using hdefines.labels_mono) hstay
    · refine Or.inr ?_
      unfold tableOf
      cases hdefines with
      | own hscope _ hlabels =>
        rw [if_pos hscope, Block.grow_labels]
        exact (isSome_lookup_define hlabels).mpr (Or.inl rfl)
      | shared hscope _ hglobals =>
        rw [if_neg (by rw [hscope]; exact Bool.false_ne_true)]
        exact (isSome_lookup_define hglobals).mpr (Or.inl rfl)
  | finish => exact absurd rfl hrow

/-- Only a START opens a block. -/
theorem Takes.opened_none {row : Option Row} (h : s.Takes options n row t)
    (hrow : ∀ name entryLabel, row ≠ some (.start name entryLabel)) (hopened : s.opened = none) :
    t.opened = none := by
  cases h with
  | blank => exact hopened
  | start name entryLabel => exact absurd rfl (hrow name entryLabel)
  | body b _ _ _ _ hopened' => exact absurd (hopened.symm.trans hopened') nofun
  | finish => rfl

end Layout

/-- The line is a statement with the operation code. -/
def HasOpcode (opcode : String) (text : List Char) : Prop :=
  ∃ st, Statement.ofLine text = .ok (some st) ∧ st.opcode = opcode

/-- The line is a statement with the label. -/
def Labelled (name : String) (text : List Char) : Prop :=
  ∃ st, Statement.ofLine text = .ok (some st) ∧ st.label = some name

instance (opcode : String) (text : List Char) : Decidable (HasOpcode opcode text) :=
  match h : Statement.ofLine text with
  | .ok (some st) => decidable_of_iff (st.opcode = opcode) (by simp [HasOpcode, h])
  | .ok none => .isFalse (by simp [HasOpcode, h])
  | .error _ => .isFalse (by simp [HasOpcode, h])

instance (name : String) (text : List Char) : Decidable (Labelled name text) :=
  match h : Statement.ofLine text with
  | .ok (some st) => decidable_of_iff (st.label = some name) (by simp [Labelled, h])
  | .ok none => .isFalse (by simp [Labelled, h])
  | .error _ => .isFalse (by simp [Labelled, h])

/-- Between these lines there is a place in a block that has the name. No block is closed in them,
so they belong to one block, which is open in front of the lines below. -/
structure InBlock (name : String) (above below : List (List Char)) : Prop where
  unclosed : ∀ line ∈ above ++ below, ¬ HasOpcode "END" line
  opened : ∀ line ∈ below, ¬ HasOpcode "START" line
  named : ∃ line ∈ above ++ below, Labelled name line

/-- The content has no literals, and no label but this one. -/
structure Content.LabelOnly (name : String) (content : Content) : Prop where
  plain : ∀ c ∈ content.cells, c.literal? = none
  label : ∀ other, .label other ∈ content.cells → other = name

section rows

variable {options : AssemblyOptions} {text : List Char} {row : Option Row} {name : String}

/-- A row is for what its statement has as operation code, and defines the label of that. -/
theorem Row.Reads.of_row {st : Statement} {r : Row} (h : Reads options st r) :
    r.label = st.label ∧ (r = .finish → st.opcode = "END") ∧
      ∀ name entryLabel, r = .start name entryLabel → st.opcode = "START" := by
  cases h with
  | start entryLabel hentry => exact ⟨rfl, nofun, fun _ _ _ => rfl⟩
  | body hstart hend hcontent => exact ⟨rfl, nofun, nofun⟩
  | finish => exact ⟨rfl, fun _ => rfl, nofun⟩

theorem Row.ne_finish (h : ofLine? options text = some row) (hend : ¬ HasOpcode "END" text) :
    row ≠ some .finish := by
  rintro rfl
  obtain ⟨st, hst, hr⟩ := exists_statement h
  exact hend ⟨st, hst, hr.of_row.2.1 rfl⟩

theorem Row.ne_start (h : ofLine? options text = some row) (hstart : ¬ HasOpcode "START" text)
    (name : String) (entryLabel : Option String) : row ≠ some (.start name entryLabel) := by
  rintro rfl
  obtain ⟨st, hst, hr⟩ := exists_statement h
  exact hstart ⟨st, hst, hr.of_row.2.2 _ _ rfl⟩

theorem Labelled.exists_row (h : Labelled name text) (hrow : Row.ofLine? options text = some row) :
    ∃ r, row = some r ∧ r.label = some name := by
  obtain ⟨st, hst, hlabel⟩ := h
  obtain ⟨r, rfl, hreads⟩ := Row.exists_row_of_statement hst hrow
  exact ⟨r, rfl, hreads.of_row.1.trans hlabel⟩

end rows

namespace Layout

variable {options : AssemblyOptions} {extra : String → Prop} {s s' t : Layout} {n n' : Nat}
  {texts : List (List Char)} {name : String}

/-- Until the block is closed it has all the names of its lines. -/
theorem addLines_openHas (h : (s.addLines options n texts).diagnostics = #[])
    (hend : ∀ text ∈ texts, ¬ HasOpcode "END" text)
    (hname : s.OpenHas options name ∨ ∃ text ∈ texts, Labelled name text) :
    (s.addLines options n texts).OpenHas options name := by
  induction texts generalizing s n with
  | nil => exact hname.resolve_right (by simp)
  | cons text rest ih =>
    obtain ⟨-, row, hrow, htakes⟩ := takes_of_addLine (diagnostics_of_addLines h)
    obtain ⟨htext, hrest⟩ := List.forall_mem_cons.mp hend
    have hrow' := Row.ne_finish hrow htext
    refine ih h hrest ?_
    rcases hname with hold | ⟨defining, hmem, hlabel⟩
    · exact Or.inl (htakes.openHas hrow' (Or.inl hold))
    · rcases List.mem_cons.mp hmem with rfl | hmem
      · exact Or.inl (htakes.openHas hrow' (Or.inr (hlabel.exists_row hrow)))
      · exact Or.inr ⟨defining, hmem, hlabel⟩

/-- A block that is open behind lines without a START has been open in front of them. -/
theorem exists_opened_of_addLines (h : (s.addLines options n texts).diagnostics = #[])
    (hstart : ∀ text ∈ texts, ¬ HasOpcode "START" text)
    (hopened : (s.addLines options n texts).opened ≠ none) : ∃ b, s.opened = some b := by
  refine Option.ne_none_iff_exists'.mp fun hnone => hopened ?_
  clear hopened
  induction texts generalizing s n with
  | nil => exact hnone
  | cons text rest ih =>
    obtain ⟨-, row, hrow, htakes⟩ := takes_of_addLine (diagnostics_of_addLines h)
    obtain ⟨htext, hrest⟩ := List.forall_mem_cons.mp hstart
    exact ih h hrest (htakes.opened_none (Row.ne_start hrow htext) hnone)

theorem Resembles.refl (options : AssemblyOptions) (extra : String → Prop) (s : Layout) :
    s.Resembles options extra s where
  opened := by
    cases s.opened with
    | none => exact .none
    | some b => exact .some ⟨rfl, rfl, rfl, rfl, fun _ => Or.inl⟩
  closed := List.forall₂_same.mpr fun b _ => ⟨rfl, rfl, rfl, rfl, fun _ => Or.inl⟩
  globals := rfl
  started := rfl

/-- A row without a label that is taken changes nothing that a later line depends on, except that
the block uses the label in it. -/
theorem Takes.resembles_self {content : Content}
    (h : s.Takes options n (some (.body none content)) t)
    (honly : content.LabelOnly name) : s.Resembles options (· = name) t := by
  have hself := Resembles.refl options (· = name) s
  cases h with
  | body b _ _ labels globals hopened hdefines =>
    cases hdefines
    refine { hself with opened := ?_ }
    rw [hopened]
    refine .some ⟨by simp, by simp, ?_, by simp [SameNames], fun other hother => ?_⟩
    · rw [Block.grow_literals, Block.note_of_no_literal honly.plain]
    · exact (Block.uses_grow.mp hother).imp_right fun hmem => Or.inl (honly.label other hmem)

/-- Once the block has the name, it may be used. -/
theorem Resembles.settle (hs : s.Resembles options (· = name) s')
    (hname : s.OpenHas options name) : s.Resembles options (fun _ => False) s' := by
  refine { hs with opened := ?_ }
  obtain ⟨b, hb, hhas⟩ := hname
  have hrel := hs.opened
  rw [hb] at hrel ⊢
  generalize s'.opened = opened' at hrel ⊢
  cases hrel with
  | some hsame => exact .some (hsame.imp fun other => Or.rec (fun h => Or.inr (h ▸ hhas)) Or.inr)

section insert

variable {text : List Char} {before above below after : List (List Char)} {content : Content}

/-- A line more in an open block that has the name by the time it is closed. -/
theorem addLines_insert (h : (s.addLines options n (below ++ after)).diagnostics = #[])
    (hend : ∀ line ∈ below, ¬ HasOpcode "END" line) (hopened : ∃ b, s.opened = some b)
    (hname : (s.addLines options n below).OpenHas options name)
    (htext : Understood options text (some (.body none content)))
    (honly : content.LabelOnly name)
    (hfits : (s.addLines options n (text :: (below ++ after))).Fits) :
    (s.addLines options n (text :: (below ++ after))).diagnostics = #[] ∧
      (s.addLines options n (below ++ after)).Resembles options (fun _ => False)
        (s.addLines options n (text :: (below ++ after))) := by
  have hnone := diagnostics_of_addLines h
  have hdeclines : ∀ r ∈ some (Row.body none content), ∀ e,
      s.Declines options n r e → e = .memoryFull := by
    rintro _ ⟨⟩ e hdeclines
    obtain ⟨b, hb⟩ := hopened
    cases hdeclines with
    | outside _ _ _ hclosed => exact absurd (hb.symm.trans hclosed) nofun
    | roomless => rfl
  have hlater : ((s.addLine options n text).addLines options (n + 1) (below ++ after)).Fits := hfits
  have htakes := (taken_or_full htext hdeclines).resolve_right fun hfull =>
    hlater.of_addLines _ hfull rfl
  have hself := htakes.resembles_self honly
  rw [addLines_append] at h hlater ⊢
  show ((s.addLine options n text).addLines options (n + 1) (below ++ after)).diagnostics = #[] ∧
    Resembles options _ _ ((s.addLine options n text).addLines options (n + 1) (below ++ after))
  rw [addLines_append]
  -- Until the block has the name it is used without a meaning, and it is not closed before.
  obtain ⟨hbelow, hsame⟩ := hself.addLines (diagnostics_of_addLines h)
    (htakes.diagnostics.trans hnone) hlater.of_addLines
    (Or.inl fun line hmem hrow => Row.ne_finish hrow (hend line hmem) rfl)
  exact (hsame.settle hname).addLines h hbelow hlater (Or.inr fun _ => id)

theorem Fits.of_ofLines (h : (ofLines options texts).Fits) :
    (addLines options {} 0 texts).Fits :=
  fun d hd => h d (mem_diagnostics_ofLines hd)

/-- Where a block has the name by the time it is closed, it is open all the way to the name. -/
theorem openHas_within
    (h : (s.addLines options n (above ++ (below ++ after))).diagnostics = #[])
    (hplace : InBlock name above below) :
    (∃ b, (s.addLines options n above).opened = some b) ∧
      ((s.addLines options n above).addLines options (n + above.length) below).OpenHas options
        name := by
  have hsegment : (s.addLines options n (above ++ below)).diagnostics = #[] := by
    rw [← List.append_assoc, addLines_append] at h
    exact diagnostics_of_addLines h
  have hhas := addLines_openHas hsegment hplace.unclosed (Or.inr hplace.named)
  rw [addLines_append] at hsegment hhas
  obtain ⟨b, hb, -⟩ := id hhas
  exact ⟨exists_opened_of_addLines hsegment hplace.opened (by rw [hb]; nofun), hhas⟩

/-- A line more anywhere in a block that has the name. -/
theorem addLines_insert_within
    (h : (s.addLines options n (above ++ (below ++ after))).diagnostics = #[])
    (hplace : InBlock name above below)
    (htext : Understood options text (some (.body none content)))
    (honly : content.LabelOnly name)
    (hfits : (s.addLines options n (above ++ text :: (below ++ after))).Fits) :
    (s.addLines options n (above ++ text :: (below ++ after))).diagnostics = #[] ∧
      (s.addLines options n (above ++ (below ++ after))).Resembles options (fun _ => False)
        (s.addLines options n (above ++ text :: (below ++ after))) := by
  obtain ⟨hopened, hhas⟩ := openHas_within h hplace
  rw [addLines_append] at h hfits ⊢
  rw [addLines_append]
  exact addLines_insert h (fun line hmem => hplace.unclosed line (List.mem_append_right _ hmem))
    hopened hhas htext honly hfits

/-- A line that names a label of its block, or the block itself, makes no difference to any other
line, if there is room for it. -/
theorem ofLines_insert
    (h : (ofLines options (before ++ (above ++ (below ++ after)))).diagnostics = #[])
    (hplace : InBlock name above below)
    (htext : Understood options text (some (.body none content)))
    (honly : content.LabelOnly name)
    (hfits : (ofLines options (before ++ (above ++ text :: (below ++ after)))).Fits) :
    (ofLines options (before ++ (above ++ text :: (below ++ after)))).diagnostics = #[] ∧
      (ofLines options (before ++ (above ++ (below ++ after)))).Resembles options (fun _ => False)
        (ofLines options (before ++ (above ++ text :: (below ++ after)))) := by
  obtain ⟨heq, hopened, hstarted⟩ := ofLines_eq_addLines h
  have hlaid := hfits.of_ofLines
  rw [heq] at h hopened hstarted ⊢
  obtain ⟨hnone, hsame⟩ : (addLines options {} 0
        (before ++ (above ++ text :: (below ++ after)))).diagnostics = #[] ∧
      (addLines options {} 0 (before ++ (above ++ (below ++ after)))).Resembles options
        (fun _ => False) (addLines options {} 0
          (before ++ (above ++ text :: (below ++ after)))) := by
    have hbefore (texts : List (List Char)) : addLines options {} 0 (before ++ texts) =
        (addLines options {} 0 before).addLines options (0 + before.length) texts :=
      addLines_append
    rw [hbefore] at h hlaid
    rw [hbefore, hbefore]
    exact addLines_insert_within h hplace htext honly hlaid
  have hopened' : (addLines options {} 0
      (before ++ (above ++ text :: (below ++ after)))).opened = none := by
    have hrel := hsame.opened
    rw [hopened] at hrel
    generalize (addLines options {} 0 (before ++ (above ++ text :: (below ++ after)))).opened =
      opened' at hrel ⊢
    cases hrel
    rfl
  have hlast : ofLines options (before ++ (above ++ text :: (below ++ after))) =
      addLines options {} 0 (before ++ (above ++ text :: (below ++ after))) := by
    have hstarted' := hsame.started.trans hstarted
    simp [ofLines, hopened', hstarted']
  rw [hlast]
  exact ⟨hnone, hsame⟩

end insert

/-- A name that a block has means something in it. -/
theorem Has.isSome_resolve {blocks : List ListingBlock} {b : ClosedBlock}
    (hs : s.Realizes options blocks none) (hb : b ∈ s.blocks) (h : s.Has options b.toBlock name) :
    (b.resolve s.globals name).isSome = true := by
  rcases h with rfl | h
  · obtain ⟨lb, hlb, hrealizes⟩ := hs.exists_listed hb
    refine (hs.isSome_resolve_iff hlb hrealizes.toRealizes).mpr (Or.inr (Or.inl ⟨lb, hlb, ?_⟩))
    exact hrealizes.name.symm
  · rw [Block.isSome_resolve_iff]
    unfold tableOf at h
    split at h
    · exact Or.inl h
    · exact Or.inr h

/-- If every name in the first layout has a meaning, then so has every name in the second. -/
theorem Resembles.undefinedLabels_eq_nil {blocks : List ListingBlock}
    (hs : s.Resembles options extra s') (hrealizes : s.Realizes options blocks none)
    (h : ∀ b ∈ s.blocks, b.undefinedLabels s.globals = []) :
    s'.blocks.flatMap (·.undefinedLabels s'.globals) = [] := by
  refine List.flatMap_eq_nil_iff.mpr fun b' hb' => List.flatMap_eq_nil_iff.mpr fun piece hpiece =>
    List.filterMap_eq_nil_iff.mpr fun c hc => ?_
  obtain ⟨b, hb, hsame⟩ := exists_of_forall₂ hs.closed.flip hb'
  cases c with
  | value w => rfl
  | literal words => rfl
  | label name =>
    have hresolve : (b.resolve s.globals name).isSome = true := by
      rcases hsame.uses name (List.mem_flatMap.mpr ⟨piece, hpiece, hc⟩) with huses | hhas
      · obtain ⟨old, hold, hname⟩ := List.mem_flatMap.mp huses
        exact b.isSome_resolve (h b hb) hold hname
      · exact hhas.isSome_resolve hrealizes hb
    exact if_pos ((hs.isSome_resolve_iff hsame.labels).mpr hresolve)

end Layout

end Assembly

section assemble

open Assembly

variable {source source' : String} {options : AssemblyOptions} {text : List Char}
  {before above below after : List (List Char)} {content : Content} {name : String}

/-- An accepted source is still accepted with a line more that names a label of its block, or the
block itself, if there is room for it. -/
theorem diagnostics_assemble_insert (h : (assemble source options).diagnostics = [])
    (hlines : Text.lines source.toList = before ++ (above ++ (below ++ after)))
    (hlines' : Text.lines source'.toList = before ++ (above ++ text :: (below ++ after)))
    (hplace : InBlock name above below)
    (htext : Understood options text (some (.body none content)))
    (honly : content.LabelOnly name)
    (hfits : ∀ d ∈ (assemble source' options).diagnostics,
      d.message ≠ SourceError.memoryFull.message) :
    (assemble source' options).diagnostics = [] := by
  obtain ⟨hnone, -⟩ := assemble_eq_program h
  obtain ⟨blocks, -, hrealizes, -⟩ := listing_of_layoutOf hnone
  have hdefined := undefinedLabels_eq_nil h
  have hroom : (layoutOf source' options).Fits :=
    fun d hd => hfits d (mem_diagnostics_assemble hd)
  have hlink : (assemble source' options).diagnostics =
      (Layout.ofLines options (Text.lines source'.toList)).link.diagnostics := rfl
  rw [layoutOf, hlines] at hnone hrealizes hdefined
  rw [layoutOf, hlines'] at hroom
  rw [hlink, hlines']
  obtain ⟨hnone', hsame⟩ := Layout.ofLines_insert hnone hplace htext honly hroom
  rw [Layout.link_diagnostics hnone', hsame.undefinedLabels_eq_nil hrealizes hdefined]

end assemble

end Comet
