import Comet.Proofs.Assembly.TableLink

namespace Comet

/-- The first subroutine is the entry, if no other one starts before it. -/
theorem DebugMap.entrySubroutine_of_least {d : DebugMap} {sub : Subroutine}
    {more : List Subroutine} (h : d.subroutines = sub :: more)
    (hleast : ∀ other ∈ more, sub.startLine < other.startLine) : d.entrySubroutine = some sub := by
  unfold entrySubroutine
  rw [h, List.foldl_cons]
  clear h
  induction more with
  | nil => rfl
  | cons other rest ih =>
    have hother := Nat.lt_asymm (hleast other List.mem_cons_self)
    simp only [List.foldl_cons, if_neg hother]
    exact ih fun later hlater => hleast later (List.mem_cons_of_mem _ hlater)

namespace Assembly

/-- Of what fills memory without a gap, exactly one has the word at a location. -/
theorem Tiles.existsUnique {l n a : Nat} {xs : List Extent} (h : Tiles l xs n) (hlow : l ≤ a)
    (hhigh : a < n) :
    ∃! k : Nat, ∃ e : Extent, xs[k]? = some e ∧ e.1.toNat ≤ a ∧ a < e.1.toNat + e.2 := by
  induction h with
  | nil => exact absurd hhigh (Nat.not_lt.mpr hlow)
  | @cons location last size extents hfree hfits hrest ih =>
    have haddress : (UInt16.ofNat location).toNat = location := UInt16.toNat_ofNat_of_lt' hfree
    have hhas : (UInt16.ofNat location).toNat ≤ a ∧ a < (UInt16.ofNat location).toNat + size ↔
        a < location + size := by
      rw [haddress]
      exact and_iff_right hlow
    by_cases hfirst : a < location + size
    · refine ⟨0, ⟨_, rfl, hhas.mpr hfirst⟩, ?_⟩
      rintro (_ | k) ⟨e, he, hle, -⟩
      · rfl
      · have hbehind := hrest.ascending.1 e (List.mem_of_getElem? he)
        omega
    · obtain ⟨k, ⟨e, he, hword⟩, hunique⟩ := ih (Nat.le_of_not_lt hfirst) hhigh
      refine ⟨k + 1, ⟨e, he, hword⟩, ?_⟩
      rintro (_ | j) ⟨f, hf, hword⟩
      · cases hf
        exact absurd (hhas.mp hword) hfirst
      · exact congrArg (· + 1) (hunique j ⟨f, hf, hword⟩)

def Group.extent (g : Group) : Extent := (g.address, g.cells.length)

/-- Linking writes the word at the address when it comes to the group. -/
def Group.Writes (g : Group) (a : Nat) : Prop :=
  g.address.toNat ≤ a ∧ a < g.address.toNat + g.cells.length

section groups

variable {blocks : List ClosedBlock} {groups : List Group}

theorem GroupsOf.extents_eq (h : GroupsOf blocks groups) :
    groups.map Group.extent = blocks.flatMap (·.extents) := by
  induction h with
  | nil => rfl
  | @concat blocks groups pieces literals b _ hpieces hliterals _ ih =>
    have hown : pieces.map Group.extent = b.pieces.toList.map Piece.extent := by
      have hsame : List.Forall₂ (fun g piece => g.extent = piece.extent) pieces b.pieces.toList :=
        hpieces.imp fun g piece h => Prod.ext h.address h.cells.length_eq
      rwa [← List.forall₂_eq_eq_eq, List.forall₂_map_left_iff, List.forall₂_map_right_iff]
    have hkept : literals.map Group.extent = b.pool.map literalExtent := by
      have hsame : List.Forall₂ (fun g literal => g.extent = literalExtent literal) literals
          b.pool :=
        hliterals.imp fun g literal h =>
          Prod.ext h.address (by rw [Group.extent, h.cells, List.length_map]; rfl)
      rwa [← List.forall₂_eq_eq_eq, List.forall₂_map_left_iff, List.forall₂_map_right_iff]
    rw [List.map_append, List.map_append, ih, hown, hkept, List.flatMap_append,
      List.flatMap_singleton]
    rfl

/-- The block of a group is in the table, and has the literals that the group asks for. -/
theorem GroupsOf.exists_literal (h : GroupsOf blocks groups) {g : Group} (hg : g ∈ groups) :
    ∃ b, blocks[g.block]? = some b ∧
      ∀ i, .literal i ∈ g.cells → ∃ words, b.literals[i]? = some words := by
  induction h with
  | nil => cases hg
  | @concat blocks groups pieces literals b _ hpieces hliterals _ ih =>
    have hlast : (blocks ++ [b])[blocks.length]? = some b := List.getElem?_concat_length
    rcases List.mem_append.mp hg with hold | hnew
    · obtain ⟨c, hc, hasked⟩ := ih hold
      obtain ⟨hlt, -⟩ := List.getElem?_eq_some_iff.mp hc
      exact ⟨c, by rwa [List.getElem?_append_left hlt], hasked⟩
    · rcases List.mem_append.mp hnew with hpiece | hliteral
      · obtain ⟨piece, -, hputs⟩ := exists_of_forall₂ hpieces hpiece
        refine ⟨b, by rwa [hputs.block], fun i hi => ?_⟩
        obtain ⟨d, -, hstands⟩ := exists_of_forall₂ hputs.cells hi
        cases hstands with
        | literal hwords => exact ⟨_, hwords⟩
      · obtain ⟨literal, -, hkeeps⟩ := exists_of_forall₂ hliterals hliteral
        refine ⟨b, by rwa [hkeeps.block], fun i hi => ?_⟩
        rw [hkeeps.cells] at hi
        obtain ⟨w, -, hw⟩ := List.mem_map.mp hi
        cases hw

end groups

/-- With a report there is no program. -/
theorem Layout.program_link {s : Layout} (h : s.link.diagnostics ≠ []) : s.link.program = none := by
  revert h
  unfold link
  cases s.diagnostics.isEmpty with
  | false => exact fun _ => rfl
  | true =>
    cases s.blocks.flatMap (·.undefinedLabels s.globals) with
    | nil => exact fun h => absurd rfl h
    | cons d rest => exact fun _ => rfl

/-- What the tables of an accepted source keep to when they are linked to the program. -/
structure Tables.Sound (t : Tables) (texts : List (List Char)) (p : Program) : Prop where
  fits : p.code.length ≤ memorySize
  pooled : ∀ g ∈ t.groups, ∀ i, .literal i ∈ g.cells →
    ∃ b, t.blocks[g.block]? = some b ∧ i < b.literalAddresses.length
  stated : ∀ g ∈ t.groups, ∃ text st, texts[g.line]? = some text ∧
    Statement.ofLine text = .ok (some st)
  written : ∀ a, a < p.code.length → ∃! k : Nat, ∃ g, t.groups[k]? = some g ∧ g.Writes a

/-- The block is the first one, of the smallest START line, and execution starts at its entry. -/
structure ListingBlock.Leads (options : AssemblyOptions) (blocks : List ListingBlock)
    (p : Program) (b : ListingBlock) (sub : Subroutine) : Prop where
  first : blocks.head? = some b
  heading : p.debug.subroutines.head? = some sub
  name : sub.name = b.name
  least : ∀ other ∈ p.debug.subroutines.tail, sub.startLine < other.startLine
  found : p.debug.entrySubroutine = some sub
  enters : ∀ a, b.EntersAt options blocks a ↔ a = p.entry.toNat

section layout

variable {options : AssemblyOptions} {listed : List ListingBlock} {s : Layout} {n : Nat}
  {t : Tables} {texts : List (List Char)}

theorem Tables.Complete.sound (h : t.Complete s) (hs : s.Realizes options listed none)
    (hsound : s.Sound n) (hopened : s.opened = none)
    (hstated : ∀ g ∈ t.groups, ∃ text st, texts[g.line]? = some text ∧
      Statement.ofLine text = .ok (some st)) : t.Sound texts s.program := by
  refine ⟨hsound.code_length_le hopened, ?_, hstated, ?_⟩
  · intro g hg i hi
    obtain ⟨b, hb, hasked⟩ := h.groups.exists_literal hg
    obtain ⟨words, hwords⟩ := hasked i hi
    have hhas := h.has hs g.block b hb
    obtain ⟨w, hw, -⟩ := hhas.literal hwords
    obtain ⟨hlt, -⟩ := List.getElem?_eq_some_iff.mp hw
    exact ⟨b.row, hhas.row, hlt⟩
  · intro a ha
    have htiles := hsound.tiles
    rw [hopened, Option.elim_none, List.append_nil, ← h.groups.extents_eq] at htiles
    rw [hsound.code_length_eq hopened] at ha
    have hgroup (k : Nat) : (∃ e : Extent, (t.groups.map Group.extent)[k]? = some e ∧
        e.1.toNat ≤ a ∧ a < e.1.toNat + e.2) ↔ ∃ g, t.groups[k]? = some g ∧ g.Writes a := by
      simp [Group.Writes, Group.extent]
    simpa only [hgroup] using htiles.existsUnique (Nat.zero_le a) ha

theorem Layout.Realizes.exists_leads (hs : s.Realizes options listed none) (hne : s.blocks ≠ [])
    (hascending :
      (s.blocks.map (·.toBlock.heading)).Pairwise fun a b => a.startLine < b.startLine) :
    ∃ b sub, ListingBlock.Leads options listed s.program b sub := by
  cases hblocks : s.blocks with
  | nil => exact absurd hblocks hne
  | cons c rest =>
    have hclosed := hs.closed
    rw [hblocks] at hclosed hascending
    cases hclosed with
    | @cons _ lb _ more hfirst hrest =>
      have hsubroutines : s.program.debug.subroutines =
          c.toBlock.heading :: rest.map (·.toBlock.heading) := by
        simp only [Layout.program, Layout.debugMap, hblocks]
        rfl
      have hentry : s.program.entry = c.entry := by simp [Layout.program, hblocks]
      obtain ⟨hleast, -⟩ := List.pairwise_cons.mp hascending
      refine ⟨lb, c.toBlock.heading, rfl, by rw [hsubroutines]; rfl, hfirst.name, ?_,
        DebugMap.entrySubroutine_of_least hsubroutines hleast, ?_⟩
      · rw [hsubroutines]
        exact hleast
      · rw [hentry]
        exact (hs.calledAt List.mem_cons_self hfirst).enters

end layout

end Assembly

section assemble

variable (source : String) (options : AssemblyOptions)

/-- For every source the assembler has an answer, at whose tables no index is out of range. The
answer is reports and no program, or no report and a program that can be launched. -/
theorem assembler_refuses_or_launches :
    assembleByTables source options = some (assemble source options) ∧
      ((assemble source options).diagnostics ≠ [] ∧ (assemble source options).program = none ∨
        (assemble source options).diagnostics = [] ∧
          ∃ (p : Program) (t : Assembly.Tables) (blocks : List Assembly.ListingBlock)
            (b : Assembly.ListingBlock) (sub : Subroutine),
          (assemble source options).program = some p ∧
          tablesOf source options = some t ∧ t.link = some (assemble source options) ∧
          t.Sound (Text.lines source.toList) p ∧
          listing source options = some blocks ∧
          p.debug.subroutines = headings source options ∧ b.Leads options blocks p sub ∧
          ∀ (stepper : LineStepper) (machine : MachineOptions), ∃ m,
            Machine.load p machine = .ok m ∧
            stepper.launch (assemble source options) machine =
              (.ok [], { machine := m, program := some p, stack := .start sub.name })) := by
  refine ⟨assembleByTables_eq source options, ?_⟩
  by_cases h : (assemble source options).diagnostics = []
  · obtain ⟨hnone, hassemble⟩ := assemble_eq_program h
    obtain ⟨t, htables, hcomplete, hlink⟩ := exists_complete source options hnone
    obtain ⟨blocks, hlisted, hrealizes, -⟩ := listing_of_assemble h
    have hopened := (Assembly.Layout.ofLines_eq_addLines hnone).2.1
    have hsound : t.Sound (Text.lines source.toList) (layoutOf source options).program :=
      hcomplete.sound hrealizes (layoutOf_sound h) hopened
        (Assembly.Tables.statement_of_ofLines htables)
    obtain ⟨b, sub, hleads⟩ := hrealizes.exists_leads (layoutOf_blocks_ne_nil h) <| by
      rw [headings_of_assemble h]
      exact Assembly.headingsFrom_ascending _ _ _
    refine .inr ⟨h, _, t, blocks, b, sub, by rw [hassemble], htables, hlink, hsound, hlisted,
      subroutines_of_assemble h, hleads, fun stepper machine => ?_⟩
    obtain ⟨m, hload⟩ := layoutOf_loads machine h
    exact ⟨m, hload, by rw [hassemble, stepper.launch_eq hleads.found hload]⟩
  · exact .inl ⟨h, Assembly.Layout.program_link h⟩

end assemble

end Comet
