import Comet.Proofs.Assembly.LineMap
import Comet.Proofs.Assembly.Rows

namespace Comet

namespace Assembly

section reading

variable {options : AssemblyOptions} {m : Mnemonic} {r : RegisterField} {i : SymbolicInstruction}

theorem register?_default {text : String}
    (h : SymbolicInstruction.register? options text = some r) :
    SymbolicInstruction.register? {} text = some r := by
  rw [register?_eq_some_iff, register_eq_ok_iff] at h ⊢
  exact ⟨h.1, fun _ => rfl⟩

theorem index?_default {index : Option String}
    (h : SymbolicInstruction.index? options index = some r) :
    SymbolicInstruction.index? {} index = some r := by
  cases index with
  | none => exact h
  | some text =>
    rw [index?_eq_some_iff, indexRegister_eq_ok_iff, ← register?_eq_some_iff] at h ⊢
    exact ⟨register?_default h.1, h.2⟩

theorem SymbolicInstruction.Reads.default {operands : List String}
    (h : Reads options m operands i) :
    Reads {} m operands i := by
  cases h with
  | empty hform => exact .empty hform
  | register hform hr => exact .register hform (register?_default hr)
  | registers hform hlike hr hx =>
    exact .registers hform hlike (register?_default hr) (register?_default hx)
  | registerAddress index hform hr hadr hx =>
    exact .registerAddress index hform (register?_default hr) hadr (index?_default hx)
  | registerOrAddress index hform hlike hr hadr hx =>
    exact .registerOrAddress index hform hlike (register?_default hr) hadr (index?_default hx)
  | address index hform hadr hx => exact .address index hform hadr (index?_default hx)

/-- Of all operations only the instructions of the machine look at the options. -/
theorem Content.read?_default {name : String} {operands : List String} {content : Content}
    (h : read? options name operands = some content) : read? {} name operands = some content := by
  obtain ⟨operation, hname, hreads⟩ := read?_eq_some_iff.mp h
  refine read?_eq_some_iff.mpr ⟨operation, hname, ?_⟩
  cases hreads with
  | space hsize => exact .space hsize
  | constants hsome hcells => exact .constants hsome hcells
  | transfer hbuffer hlength => exact .transfer hbuffer hlength
  | save => exact .save
  | restore => exact .restore
  | machine hi => exact .machine hi.default

/-- What a line is read as does not depend on the options, if it can be read. -/
theorem Row.ofLine?_default {text : List Char} {row : Option Row}
    (h : ofLine? options text = some row) : ofLine? {} text = some row := by
  refine ofLine?_eq_some_iff.mpr ((ofLine?_eq_some_iff.mp h).imp_right ?_)
  rintro ⟨s, r, hs, hrow, hreads⟩
  refine ⟨s, r, hs, hrow, ?_⟩
  cases hreads with
  | start entryLabel hentry => exact .start entryLabel hentry
  | body hstart hend hcontent => exact .body hstart hend (Content.read?_default hcontent)
  | finish => exact .finish

theorem listFrom_default {last : Option ListingBlock} {location line : Nat}
    {texts : List (List Char)} {blocks : List ListingBlock}
    (h : listFrom options last location line texts = some blocks) :
    listFrom {} last location line texts = some blocks := by
  rw [listFrom_eq_some_iff] at h ⊢
  induction h with
  | done => exact .done
  | blank hrow _ ih => exact .blank (Row.ofLine?_default hrow) ih
  | start hrow _ ih => exact .start (Row.ofLine?_default hrow) ih
  | body hrow _ ih => exact .body (Row.ofLine?_default hrow) ih
  | finish hrow _ ih => exact .finish (Row.ofLine?_default hrow) ih

theorem headingsFrom_default {n : Nat} {texts : List (List Char)}
    (h : ∀ text ∈ texts, ∃ row, Row.ofLine? options text = some row) :
    headingsFrom {} n texts = headingsFrom options n texts := by
  induction texts generalizing n with
  | nil => rfl
  | cons text rest ih =>
    obtain ⟨row, hrow⟩ := h text List.mem_cons_self
    rw [headingsFrom, headingsFrom, hrow, Row.ofLine?_default hrow,
      ih fun other hother => h other (List.mem_cons_of_mem _ hother)]

end reading

theorem forall₂_meet {α β γ : Type} {R : α → β → Prop} {S : γ → β → Prop} {xs : List α}
    {ys : List β} {zs : List γ} (h : List.Forall₂ R xs ys) (h' : List.Forall₂ S zs ys) :
    List.Forall₂ (fun x z => ∃ y ∈ ys, R x y ∧ S z y) xs zs := by
  induction h generalizing zs with
  | nil =>
    cases h'
    exact .nil
  | cons hr _ ih =>
    cases h' with
    | cons hs hrest =>
      refine .cons ⟨_, List.mem_cons_self, hr, hs⟩ ((ih hrest).imp ?_)
      rintro x z ⟨y, hy, hmeet⟩
      exact ⟨y, List.mem_cons_of_mem _ hy, hmeet⟩

theorem map_eq_of_forall₂ {α β : Type} {f g : α → β} {xs ys : List α}
    (h : List.Forall₂ (fun x y => f x = g y) xs ys) : xs.map f = ys.map g := by
  induction h with
  | nil => rfl
  | cons hxy _ ih => rw [List.map_cons, List.map_cons, hxy, ih]

section scopes

variable {options others : AssemblyOptions} {blocks : List ListingBlock} {lb : ListingBlock}
  {s t : Layout}

/-- A name keeps its meaning if the labels of other blocks get to count as well. -/
theorem Names.widen (hwider : options.labelScope = true ∨ others.labelScope = false)
    {name : String} {a : Nat} (h : Names options blocks lb name a) :
    Names others blocks lb name a := by
  induction h with
  | own hl hlabel => exact .own hl hlabel
  | shared hscope hc hl hlabel =>
    rcases hwider with hscoped | hflat
    · rw [hscope] at hscoped
      cases hscoped
    · exact .shared hflat hc hl hlabel
  | origin hown hc hentry => exact .origin hown hc hentry
  | entry hown hc hentry _ ih => exact .entry hown hc hentry ih

theorem ListingBlock.EntersAt.widen
    (hwider : options.labelScope = true ∨ others.labelScope = false) {a : Nat}
    (h : lb.EntersAt options blocks a) : lb.EntersAt others blocks a := by
  unfold EntersAt at h ⊢
  split at h
  · exact h
  · exact Names.widen hwider h

theorem Denotes.eq_of_wider (hwider : options.labelScope = true ∨ others.labelScope = false)
    {c : Cell} {v w : Word} (hv : Denotes options blocks lb c v)
    (hw : Denotes others blocks lb c w) :
    v = w := by
  cases c with
  | value u => exact Eq.trans hv (Eq.symm hw)
  | label name =>
    have hname : Names options blocks lb name v.toNat := (hv _).mpr rfl
    exact UInt16.toNat_inj.mp ((hw _).mp (hname.widen hwider))
  | literal words =>
    have hplace : (words, v.toNat) ∈ lb.pool := (hv _).mpr rfl
    exact UInt16.toNat_inj.mp ((hw _).mp hplace)

/-- Two layouts of one listing have the same entries. -/
theorem Layout.Realizes.entries_eq (hwider : options.labelScope = true ∨ others.labelScope = false)
    (hs : s.Realizes options blocks none) (ht : t.Realizes others blocks none) :
    s.blocks.map (·.entry) = t.blocks.map (·.entry) := by
  refine map_eq_of_forall₂ ((forall₂_meet hs.closed ht.closed).imp ?_)
  rintro b c ⟨lb, hlb, hb, hc⟩
  exact UInt16.toNat_inj.mp ((ht.entersAt_iff hlb hc).mp (hb.enters.widen hwider))

theorem Layout.Realizes.instructionLines_eq (hs : s.Realizes options blocks none)
    (ht : t.Realizes others blocks none) :
    s.blocks.map (·.instructionLines) = t.blocks.map (·.instructionLines) := by
  refine map_eq_of_forall₂ ((forall₂_meet hs.closed ht.closed).imp ?_)
  rintro b c ⟨lb, -, hb, hc⟩
  rw [ClosedBlock.instructionLines, ClosedBlock.instructionLines, hb.pieces, hc.pieces]

/-- The words of one image are the same, whether labels are global or not. -/
theorem Image.code_eq (hwider : options.labelScope = true ∨ others.labelScope = false)
    {code code' : List Word} (h : Image options blocks code) (h' : Image others blocks code') :
    code = code' := by
  have hmeet := forall₂_meet (List.Forall₂.flip h.words) (List.Forall₂.flip h'.words)
  rw [← List.forall₂_eq_eq_eq]
  refine hmeet.imp ?_
  rintro v w ⟨slot, -, hv, hw⟩
  exact Denotes.eq_of_wider hwider hv hw

/-- A program is made of its code and of what the blocks say of entries, START lines and
instructions. -/
theorem Layout.program_eq (hcode : s.program.code = t.program.code)
    (hentries : s.blocks.map (·.entry) = t.blocks.map (·.entry))
    (hheadings : s.blocks.map (·.toBlock.heading) = t.blocks.map (·.toBlock.heading))
    (hlines : s.blocks.map (·.instructionLines) = t.blocks.map (·.instructionLines)) :
    s.program = t.program := by
  have hsubroutineMap (s : Layout) : s.blocks.map (fun b => (b.entry, b.startLine)) =
      (s.blocks.map (·.entry)).zip
        ((s.blocks.map (·.toBlock.heading)).map Subroutine.startLine) := by
    rw [List.map_map, List.zip_map']
    rfl
  have hentry (s : Layout) : s.program.entry = (s.blocks.map (·.entry)).head?.getD 0 := by
    rw [List.head?_map]
    rfl
  have hdebug : s.debugMap = t.debugMap := by
    have hsubroutines : s.debugMap.subroutines = t.debugMap.subroutines := hheadings
    have hlineMap : s.debugMap.lineMap = t.debugMap.lineMap := by
      simp only [debugMap, List.flatMap_def, hlines]
    have hmap : s.debugMap.subroutineMap = t.debugMap.subroutineMap := by
      simp only [debugMap, hsubroutineMap, hentries, hheadings]
    exact DebugMap.ext hlineMap hmap hsubroutines
  have hentries : s.program.entry = t.program.entry := by rw [hentry, hentry, hentries]
  exact Program.ext hcode hentries hdebug

end scopes

end Assembly

section assemble

variable {source : String} {options others : AssemblyOptions}

theorem listing_default {blocks : List Assembly.ListingBlock}
    (h : listing source options = some blocks) : listing source {} = some blocks :=
  Assembly.listFrom_default h

theorem headings_default (h : (assemble source options).diagnostics = []) :
    headings source {} = headings source options :=
  Assembly.headingsFrom_default (rows_of_assemble h)

theorem assemble_eq_of_wider (hwider : options.labelScope = true ∨ others.labelScope = false)
    (h : (assemble source options).diagnostics = [])
    (h' : (assemble source others).diagnostics = []) :
    assemble source options = assemble source others := by
  obtain ⟨-, hassemble⟩ := assemble_eq_program h
  obtain ⟨-, hassemble'⟩ := assemble_eq_program h'
  obtain ⟨blocks, hlisted, hs, hfrom⟩ := listing_of_assemble h
  obtain ⟨blocks', hlisted', ht, -⟩ := listing_of_assemble h'
  obtain rfl : blocks = blocks' :=
    Option.some.inj ((listing_default hlisted).symm.trans (listing_default hlisted'))
  have hheadings : headings source options = headings source others :=
    (headings_default h).symm.trans (headings_default h')
  have hprogram : (layoutOf source options).program = (layoutOf source others).program := by
    refine Assembly.Layout.program_eq ?_ (hs.entries_eq hwider ht) ?_ (hs.instructionLines_eq ht)
    · exact (hs.image_of_assemble h hfrom).code_eq hwider (ht.image_of_assemble h' hfrom)
    · rw [headings_of_assemble h, headings_of_assemble h', hheadings]
  rw [hassemble, hassemble', hprogram]

/-- The options only restrict what is accepted. What is accepted under two settings of them is
assembled into one and the same program. -/
theorem program_independent_of_options (h : (assemble source options).diagnostics = [])
    (h' : (assemble source others).diagnostics = []) :
    assemble source options = assemble source others := by
  cases hscope : options.labelScope with
  | true => exact assemble_eq_of_wider (Or.inl hscope) h h'
  | false =>
    cases hscope' : others.labelScope with
    | true => exact (assemble_eq_of_wider (Or.inl hscope') h' h).symm
    | false => exact assemble_eq_of_wider (Or.inr hscope') h h'

end assemble

/-- Each block is entered at a label of its own, and the first names the second before its START. -/
def crossingSource : String :=
  "MAIN START GO\nDATA DC SUB\nGO LD GR1,=5\n CALL SUB\n END\n" ++
    "SUB START LOOP\nTEN DC 10\nLOOP LAD GR1,TEN\n END\n"

theorem crossing_program_independent_of_options :
    (assemble crossingSource {}).diagnostics = [] ∧
      (assemble crossingSource { useGr8 := false, labelScope := false }).diagnostics = [] ∧
      assemble crossingSource {} =
        assemble crossingSource { useGr8 := false, labelScope := false } := by
  have hscoped : (assemble crossingSource {}).diagnostics = [] := by decide +kernel
  have hflat : (assemble crossingSource { useGr8 := false, labelScope := false }).diagnostics =
      [] := by decide +kernel
  exact ⟨hscoped, hflat, program_independent_of_options hscoped hflat⟩

end Comet
