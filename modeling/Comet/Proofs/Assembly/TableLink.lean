import Comet.Proofs.Assembly.Entries
import Comet.Proofs.Assembly.Following
import Comet.Proofs.Assembly.LineMap

namespace Comet

namespace Assembly

/-- The report of a word that names a label nobody defined. -/
def ClosedBlock.undefined? (b : ClosedBlock) (globals : Symbols) (line : Nat) :
    Cell → Option Diagnostic
  | .label name =>
    if (b.resolve globals name).isSome then none
    else some ⟨line, (SourceError.undefinedLabel name).message⟩
  | _ => none

theorem ClosedBlock.undefinedLabels_eq (b : ClosedBlock) (globals : Symbols) :
    b.undefinedLabels globals = b.pieces.toList.flatMap fun piece =>
      piece.cells.filterMap (b.undefined? globals piece.line) := rfl

/-- The code in which so much has been written, and the reports made so far. -/
def Linking.upTo (size : Nat) (written : List Word) (diagnostics : List Diagnostic) : Linking :=
  ⟨written ++ .replicate (size - written.length) 0, diagnostics⟩

theorem Linking.write_upTo {size : Nat} {written : List Word} {diagnostics : List Diagnostic}
    (h : written.length < size) (w : Word) :
    (upTo size written diagnostics).write written.length w =
      some (upTo size (written ++ [w]) diagnostics) := by
  have hlength : (upTo size written diagnostics).code.length = size := by
    simp only [upTo, List.length_append, List.length_replicate]
    omega
  rw [write, if_pos (by rwa [hlength])]
  obtain ⟨rest, hrest⟩ : ∃ rest, size - written.length = rest + 1 :=
    ⟨size - written.length - 1, by omega⟩
  have hnext : size - (written.length + 1) = rest := by omega
  simp [upTo, hrest, hnext, List.replicate_succ]

/-- The tables have the blocks of the layout, with the same numbers. -/
structure Tables.Has (t : Tables) (globals : Symbols) (k : Nat) (b : ClosedBlock) : Prop where
  globals : t.globals = globals
  labels : t.locals[k]? = some b.labels
  row : t.blocks[k]? = some b.row
  pool : b.pool.map (·.1) = b.literals
  nodup : b.literals.Nodup

section linking

variable {t : Tables} {globals : Symbols} {k size : Nat} {b : ClosedBlock} {g : Group}
  {written : List Word} {diagnostics : List Diagnostic}

theorem Tables.Has.resolve_eq (h : t.Has globals k b) (name : String) :
    t.resolve k name = b.resolve globals name := by
  rw [Tables.resolve, h.labels, h.globals]
  rfl

/-- A literal that is used has its address in the pool of its block. -/
theorem Tables.Has.literal (h : t.Has globals k b) {index : Nat} {words : List Word}
    (hwords : b.literals[index]? = some words) :
    ∃ w, b.row.literalAddresses[index]? = some w ∧ b.pool.lookup words = some w := by
  rw [← h.pool, List.getElem?_map] at hwords
  obtain ⟨⟨words, w⟩, hentry, rfl⟩ := Option.map_eq_some_iff.mp hwords
  refine ⟨w, ?_, lookup_of_mem (h.pool ▸ h.nodup) (List.mem_of_getElem? hentry)⟩
  rw [ClosedBlock.row, List.getElem?_map, hentry]
  rfl

theorem Linking.linkCell_upTo (h : t.Has globals k b) (hg : g.block = k)
    (hfree : written.length < size) {c : IndexedCell} {d : Cell} (hc : c.Stands b.literals d) :
    (upTo size written diagnostics).linkCell t g written.length c =
      some (upTo size (written ++ [(b.cellValue? globals d).getD 0])
        (diagnostics ++ (b.undefined? globals g.line d).toList)) := by
  cases hc with
  | value w =>
    rw [linkCell, write_upTo hfree]
    simp [ClosedBlock.cellValue?, ClosedBlock.undefined?]
  | label name =>
    rw [linkCell, hg, h.resolve_eq]
    cases hname : b.resolve globals name with
    | some w =>
      simp only [write_upTo hfree]
      simp [ClosedBlock.cellValue?, ClosedBlock.undefined?, hname]
    | none =>
      have hreport : (upTo size written diagnostics).report g.line (.undefinedLabel name) =
          upTo size written
            (diagnostics ++ [⟨g.line, (SourceError.undefinedLabel name).message⟩]) := rfl
      simp only [hreport, write_upTo hfree]
      simp [ClosedBlock.cellValue?, ClosedBlock.undefined?, hname]
  | literal hwords =>
    obtain ⟨w, haddress, hlookup⟩ := h.literal hwords
    rw [linkCell, hg, h.row]
    simp only [Option.bind_eq_bind, Option.bind_some, haddress, write_upTo hfree]
    simp [ClosedBlock.cellValue?, ClosedBlock.undefined?, hlookup]

theorem Linking.linkCells_upTo (h : t.Has globals k b) (hg : g.block = k)
    {cells : List IndexedCell} {cells' : List Cell}
    (hcells : List.Forall₂ (IndexedCell.Stands b.literals) cells cells')
    (hfits : written.length + cells'.length ≤ size) :
    (upTo size written diagnostics).linkCells t g written.length cells =
      some (upTo size (written ++ cells'.map fun d => (b.cellValue? globals d).getD 0)
        (diagnostics ++ cells'.filterMap (b.undefined? globals g.line))) := by
  induction hcells generalizing written diagnostics with
  | nil => simp [linkCells]
  | @cons c d rest rest' hfirst _ ih =>
    rw [List.length_cons] at hfits
    rw [linkCells, linkCell_upTo h hg (by omega) hfirst]
    have hrest := @ih (written ++ [(b.cellValue? globals d).getD 0])
      (diagnostics ++ (b.undefined? globals g.line d).toList)
      (by rw [List.length_append, List.length_singleton]; omega)
    rw [List.length_append, List.length_singleton] at hrest
    have hreports : (d :: rest').filterMap (b.undefined? globals g.line) =
        (b.undefined? globals g.line d).toList ++
          rest'.filterMap (b.undefined? globals g.line) := by
      cases hd : b.undefined? globals g.line d <;> simp [hd]
    simp [hrest, hreports]

theorem Linking.linkGroups_append (t : Tables) (l : Linking) (xs ys : List Group) :
    l.linkGroups t (xs ++ ys) = (l.linkGroups t xs).bind (·.linkGroups t ys) := by
  induction xs generalizing l with
  | nil => rfl
  | cons g rest ih =>
    rw [List.cons_append, linkGroups, linkGroups]
    cases l.linkCells t g g.address.toNat g.cells with
    | none => rfl
    | some l => exact ih l

theorem Linking.linkPieces_upTo (h : t.Has globals k b) {groups : List Group}
    {pieces : List Piece} {last : Nat}
    (hpieces : List.Forall₂ (Group.Puts k b.literals) groups pieces)
    (htiles : Tiles written.length (pieces.map Piece.extent) last) (hlast : last ≤ size) :
    (upTo size written diagnostics).linkGroups t groups =
      some (upTo size
        (written ++ pieces.flatMap fun piece =>
          piece.cells.map fun d => (b.cellValue? globals d).getD 0)
        (diagnostics ++ pieces.flatMap fun piece =>
          piece.cells.filterMap (b.undefined? globals piece.line))) := by
  induction hpieces generalizing written diagnostics with
  | nil => simp [linkGroups]
  | @cons g piece gs rest hfirst _ ih =>
    obtain ⟨haddress, hrest, hfits⟩ := Tiles.uncons htiles
    have hbehind := @ih (written ++ piece.cells.map fun d => (b.cellValue? globals d).getD 0)
      (diagnostics ++ piece.cells.filterMap (b.undefined? globals piece.line))
      (by rwa [List.length_append, List.length_map])
    rw [linkGroups, hfirst.address, haddress,
      linkCells_upTo h hfirst.block hfirst.cells (by omega), hfirst.line]
    simp only [Option.bind_eq_bind, Option.bind_some, hbehind, List.flatMap_cons,
      List.append_assoc]

theorem Linking.linkLiterals_upTo (h : t.Has globals k b) {groups : List Group}
    {pool : List (List Word × Word)} {last : Nat}
    (hpool : List.Forall₂ (Group.Keeps k) groups pool)
    (htiles : Tiles written.length (pool.map literalExtent) last) (hlast : last ≤ size) :
    (upTo size written diagnostics).linkGroups t groups =
      some (upTo size (written ++ pool.flatMap (·.1)) diagnostics) := by
  induction hpool generalizing written with
  | nil => simp [linkGroups]
  | @cons g literal gs rest hfirst _ ih =>
    obtain ⟨haddress, hrest, hfits⟩ := Tiles.uncons htiles
    have hbehind := @ih (written ++ literal.1) (by rwa [List.length_append])
    have hvalues : (literal.1.map Cell.value).map (fun d => (b.cellValue? globals d).getD 0) =
        literal.1 := by
      simp [ClosedBlock.cellValue?, Function.comp_def]
    have hreports : (literal.1.map Cell.value).filterMap (b.undefined? globals g.line) = [] := by
      simp [ClosedBlock.undefined?]
    have hcells := @linkCells_upTo _ _ _ size _ _ written diagnostics h hfirst.block _ _
      (IndexedCell.stands_values b.literals literal.1) (by rw [List.length_map]; omega)
    rw [hvalues, hreports, List.append_nil] at hcells
    rw [linkGroups, hfirst.address, haddress, hfirst.cells, hcells]
    simp only [Option.bind_eq_bind, Option.bind_some, hbehind, List.flatMap_cons,
      List.append_assoc]

/-- The groups of the blocks are linked to the words of the blocks. -/
theorem Linking.linkBlocks_upTo {blocks : List ClosedBlock} {groups : List Group} {last : Nat}
    (hgroups : GroupsOf blocks groups)
    (hhas : ∀ k b, blocks[k]? = some b → t.Has globals k b)
    (htiles : Tiles 0 (blocks.flatMap (·.extents)) last) (hlast : last ≤ size) :
    (upTo size [] []).linkGroups t groups =
      some (upTo size (blocks.flatMap (·.words globals))
        (blocks.flatMap (·.undefinedLabels globals))) := by
  induction hgroups generalizing last with
  | nil => rfl
  | @concat blocks groups pieces literals b hbefore hpieces hliterals hpool ih =>
    rw [List.flatMap_append, List.flatMap_singleton] at htiles
    obtain ⟨m, hfirst, hblock⟩ := htiles.split
    obtain ⟨m', hown, hkept⟩ := Tiles.split hblock
    have hm : (blocks.flatMap (·.words globals)).length = m := by
      rw [hfirst.last_eq, Nat.zero_add]
      exact Layout.length_flatMap_eq_extentsSize _ _ _ fun b => Layout.words_length b globals
    have hm' := hown.last_eq
    have hlast' := hkept.last_eq
    have hb : t.Has globals blocks.length b := hhas _ b List.getElem?_concat_length
    have hold : ∀ k b, blocks[k]? = some b → t.Has globals k b := by
      intro k c hc
      obtain ⟨hlt, -⟩ := List.getElem?_eq_some_iff.mp hc
      exact hhas k c (by rwa [List.getElem?_append_left hlt])
    have hplaced : (blocks.flatMap (·.words globals) ++ b.pieces.toList.flatMap fun piece =>
        piece.cells.map fun d => (b.cellValue? globals d).getD 0).length = m' := by
      have hpieces : (b.pieces.toList.flatMap fun piece =>
          piece.cells.map fun d => (b.cellValue? globals d).getD 0).length =
            extentsSize b.toBlock.extents := by
        rw [Block.extents, List.map_eq_flatMap]
        apply Layout.length_flatMap_eq_extentsSize
        simp [extentsSize, Piece.extent]
      rw [List.length_append, hm, hpieces, hm']
    rw [linkGroups_append, ih hold hfirst (by omega), Option.bind_some, linkGroups_append,
      linkPieces_upTo hb hpieces (hm.symm ▸ hown) (by omega), Option.bind_some,
      linkLiterals_upTo hb hliterals (hplaced.symm ▸ hkept) hlast]
    simp [ClosedBlock.words, ClosedBlock.undefinedLabels_eq]

end linking

section layout

variable {options : AssemblyOptions} {listed : List ListingBlock} {s : Layout} {n : Nat}

/-- An instruction has words. -/
theorem ClosedBlock.Realizes.cells_ne_nil {globals : Symbols} {b : ClosedBlock} {lb : ListingBlock}
    (hb : b.Realizes options globals listed lb) :
    ∀ piece ∈ b.pieces.toList, piece.isInstruction = true → 0 < piece.cells.length := by
  have hcode (line location : Nat) (is : List SymbolicInstruction) :
      ∀ piece ∈ instructionPieces line location is, 0 < piece.cells.length := by
    induction is generalizing location with
    | nil => nofun
    | cons i rest ih =>
      intro piece hpiece
      rcases List.mem_cons.mp hpiece with rfl | hrest
      · exact Nat.succ_pos _
      · exact ih _ piece hrest
  intro piece hpiece hinstruction
  rw [hb.pieces] at hpiece
  obtain ⟨l, -, hmem⟩ := List.mem_flatMap.mp hpiece
  unfold ListingLine.pieces Content.pieces at hmem
  split at hmem
  · obtain rfl := List.mem_singleton.mp hmem
    cases hinstruction
  · exact hcode _ _ _ piece hmem

theorem sublist_instructionLines {b : ClosedBlock}
    (h : ∀ piece ∈ b.pieces.toList, piece.isInstruction = true → 0 < piece.cells.length) :
    (b.instructionLines.map (·.1)).Sublist ((b.extents.filter (0 < ·.2)).map (·.1)) := by
  have hpieces (pieces : List Piece)
      (h : ∀ piece ∈ pieces, piece.isInstruction = true → 0 < piece.cells.length) :
      ((lineEntries pieces).map (·.1)).Sublist
        (((pieces.map Piece.extent).filter (0 < ·.2)).map (·.1)) := by
    induction pieces with
    | nil => exact .slnil
    | cons piece rest ih =>
      have hrest := ih fun p hp => h p (List.mem_cons_of_mem _ hp)
      cases hinstruction : piece.isInstruction with
      | true =>
        have hpositive := h piece List.mem_cons_self hinstruction
        simpa [lineEntries, hinstruction, Piece.extent, hpositive] using hrest
      | false =>
        have hskip : lineEntries (piece :: rest) = lineEntries rest := by
          simp [lineEntries, hinstruction]
        rw [hskip, List.map_cons, List.filter_cons]
        split
        · exact hrest.cons _
        · exact hrest
  rw [ClosedBlock.extents, List.filter_append, List.map_append]
  exact (hpieces _ h).trans (List.sublist_append_left _ _)

/-- The instructions of a layout have ascending addresses. -/
theorem Layout.Realizes.ascending_instructionLines (hs : s.Realizes options listed none)
    (hsound : s.Sound n) (hopened : s.opened = none) :
    AddressMap.Ascending (s.blocks.flatMap (·.instructionLines)) := by
  have htiles := hsound.tiles
  rw [hopened, Option.elim_none, List.append_nil] at htiles
  have hsublist : ((s.blocks.flatMap (·.instructionLines)).map (·.1)).Sublist
      (((s.blocks.flatMap (·.extents)).filter (0 < ·.2)).map (·.1)) := by
    have hpositive : ∀ b ∈ s.blocks, ∀ piece ∈ b.pieces.toList, piece.isInstruction = true →
        0 < piece.cells.length := by
      intro b hb
      obtain ⟨lb, -, hrealizes⟩ := hs.exists_listed hb
      exact hrealizes.cells_ne_nil
    revert hpositive
    generalize s.blocks = blocks
    intro hpositive
    induction blocks with
    | nil => exact .slnil
    | cons b rest ih =>
      simp only [List.flatMap_cons, List.map_append, List.filter_append]
      exact (sublist_instructionLines (hpositive b List.mem_cons_self)).append
        (ih fun c hc => hpositive c (List.mem_cons_of_mem _ hc))
  have haddresses :
      (((s.blocks.flatMap (·.extents)).filter (0 < ·.2)).map (·.1)).Pairwise (· < ·) :=
    List.pairwise_map.mpr htiles.ascending.2
  exact List.pairwise_map.mp (haddresses.sublist hsublist)

/-- The instructions among the groups, as they get into the line map. -/
def groupLines (groups : List Group) : List (Word × Nat) :=
  groups.filterMap fun g => if g.isInstruction then some (g.address, g.line) else none

theorem groupLines_of_puts {k : Nat} {literals : List (List Word)} {groups : List Group}
    {pieces : List Piece} (h : List.Forall₂ (Group.Puts k literals) groups pieces) :
    groupLines groups = lineEntries pieces := by
  induction h with
  | nil => rfl
  | cons hfirst _ ih =>
    unfold groupLines lineEntries at *
    rw [List.filterMap_cons, List.filterMap_cons, ih, hfirst.isInstruction, hfirst.address,
      hfirst.line]

theorem groupLines_of_keeps {k : Nat} {groups : List Group} {pool : List (List Word × Word)}
    (h : List.Forall₂ (Group.Keeps k) groups pool) : groupLines groups = [] := by
  refine List.filterMap_eq_nil_iff.mpr fun g hg => ?_
  obtain ⟨literal, -, hkeeps⟩ := exists_of_forall₂ h hg
  rw [hkeeps.isInstruction]
  rfl

theorem GroupsOf.lines_eq {blocks : List ClosedBlock} {groups : List Group}
    (h : GroupsOf blocks groups) : groupLines groups = blocks.flatMap (·.instructionLines) := by
  induction h with
  | nil => rfl
  | @concat blocks groups pieces literals b _ hpieces hliterals _ ih =>
    have happend (xs ys : List Group) : groupLines (xs ++ ys) = groupLines xs ++ groupLines ys :=
      List.filterMap_append
    rw [happend, happend, ih, groupLines_of_puts hpieces, groupLines_of_keeps hliterals,
      List.append_nil, List.flatMap_append, List.flatMap_singleton]
    rfl

/-- The tables have the blocks of the layout, and nothing is open. -/
structure Tables.Complete (t : Tables) (s : Layout) : Prop where
  globals : t.globals = s.globals
  locals : t.locals = s.blocks.map (·.labels)
  blocks : t.blocks = s.blocks.map (·.row)
  groups : GroupsOf s.blocks t.groups
  location : t.location = s.location

theorem Follows.complete {t : Tables} (h : Follows True t s) (hopened : s.opened = none) :
    t.Complete s := by
  rcases h with ⟨h, hsound⟩ | ⟨h, -⟩
  · have hF := hsound trivial
    obtain ⟨globals, location, hstarted⟩ := h
    exact ⟨rfl, hF.locals, hF.blocks, hF.groups, rfl⟩
  · obtain ⟨globals, b, pieces, location, hpieces, hliterals⟩ := h
    cases hopened

theorem Tables.Complete.debugMap_eq {t : Tables} (h : t.Complete s)
    (hs : s.Realizes options listed none) (hsound : s.Sound n) (hopened : s.opened = none) :
    t.debugMap = s.debugMap := by
  have hascending := hs.ascending_instructionLines hsound hopened
  obtain ⟨hleft, hright⟩ := AddressMap.ofList_of_ascending hascending
  have hlineMap : t.debugMap.lineMap = s.debugMap.lineMap := by
    show AddressMap.ofList (groupLines t.groups) = _
    rw [h.groups.lines_eq, hleft]
    exact hright.symm
  have hsubroutineMap : t.debugMap.subroutineMap = s.debugMap.subroutineMap := by
    simp only [debugMap, Layout.debugMap, h.blocks, List.map_map]
    rfl
  have hsubroutines : t.debugMap.subroutines = s.debugMap.subroutines := by
    simp only [debugMap, Layout.debugMap, h.blocks, List.map_map]
    rfl
  exact DebugMap.ext hlineMap hsubroutineMap hsubroutines

theorem Tables.Complete.has {t : Tables} (h : t.Complete s)
    (hs : s.Realizes options listed none) (k : Nat) (b : ClosedBlock)
    (hb : s.blocks[k]? = some b) : t.Has s.globals k b := by
  obtain ⟨lb, -, hrealizes⟩ := hs.exists_listed (List.mem_of_getElem? hb)
  refine ⟨h.globals, ?_, ?_, ?_, ?_⟩
  · rw [h.locals, List.getElem?_map, hb]
    rfl
  · rw [h.blocks, List.getElem?_map, hb]
    rfl
  · rw [hrealizes.pool, placePool, List.map_map, hrealizes.literals]
    exact map_fst_placeWords _ _
  · rw [hrealizes.literals]
    exact lb.literals_nodup

/-- Linking the tables writes the words of the layout, at indices that are all in range. -/
theorem Tables.Complete.link_eq {t : Tables} (h : t.Complete s)
    (hs : s.Realizes options listed none) (hsound : s.Sound n) (hopened : s.opened = none)
    (hnone : s.diagnostics = #[]) : t.link = some s.link := by
  have htiles := hsound.tiles
  rw [hopened, Option.elim_none, List.append_nil] at htiles
  have hlinked := Linking.linkBlocks_upTo h.groups (h.has hs) htiles (Nat.le_refl _)
  have hstart : (⟨.replicate t.location 0, []⟩ : Linking) = Linking.upTo s.location [] [] := by
    rw [h.location]
    rfl
  have hlength : (s.blocks.flatMap (·.words s.globals)).length = s.location :=
    hsound.code_length_eq hopened
  have hcode : s.blocks.flatMap (·.words s.globals) ++
      .replicate (s.location - (s.blocks.flatMap (·.words s.globals)).length) 0 =
      s.program.code := by
    rw [hlength, Nat.sub_self]
    exact List.append_nil _
  have hentry : (t.blocks.head?.map (·.entry)).getD 0 = s.program.entry := by
    rw [h.blocks, List.head?_map, Option.map_map]
    rfl
  have hdebug : t.debugMap = s.program.debug := h.debugMap_eq hs hsound hopened
  rw [Tables.link, hstart, hlinked, Layout.link, hnone]
  simp only [Option.bind_eq_bind, Option.bind_some, Linking.upTo, hcode, hentry, hdebug]
  cases s.blocks.flatMap (·.undefinedLabels s.globals) <;> rfl

end layout

end Assembly

section assemble

variable (source : String) (options : AssemblyOptions)

/-- The tables that the lines of a source fill. -/
def tablesOf : Option Assembly.Tables :=
  Assembly.Tables.ofLines options (Text.lines source.toList)

theorem exists_tablesOf : ∃ t, tablesOf source options = some t ∧
    Assembly.Follows ((layoutOf source options).diagnostics = #[]) t (layoutOf source options) :=
  Assembly.exists_follows_ofLines options _

/-- If nothing is wrong with the lines, the tables have all blocks, and linking goes through. -/
theorem exists_complete (hnone : (layoutOf source options).diagnostics = #[]) :
    ∃ t, tablesOf source options = some t ∧ t.Complete (layoutOf source options) ∧
      t.link = some (assemble source options) := by
  obtain ⟨t, htables, hfollows⟩ := exists_tablesOf source options
  obtain ⟨blocks, -, hrealizes, -⟩ := listing_of_layoutOf hnone
  have hopened : (layoutOf source options).opened = none :=
    (Assembly.Layout.ofLines_eq_addLines hnone).2.1
  have hcomplete := (hfollows.mono fun _ => hnone).complete hopened
  exact ⟨t, htables, hcomplete,
    hcomplete.link_eq hrealizes (Assembly.Layout.sound_ofLines hnone) hopened hnone⟩

/-- Assembling by the tables has an answer for every source, which is that of the assembler. -/
theorem assembleByTables_eq : assembleByTables source options = some (assemble source options) := by
  obtain ⟨t, htables, hfollows⟩ := exists_tablesOf source options
  have hunfold : assembleByTables source options =
      if t.diagnostics.isEmpty then t.link else some { diagnostics := t.diagnostics.toList } := by
    rw [tablesOf] at htables
    rw [assembleByTables, htables]
    rfl
  rw [hunfold, hfollows.diagnostics_eq]
  by_cases hnone : (layoutOf source options).diagnostics = #[]
  · obtain ⟨t', htables', -, hlink⟩ := exists_complete source options hnone
    obtain rfl := Option.some.inj (htables.symm.trans htables')
    rw [if_pos (by simp [hnone])]
    exact hlink
  · have hassemble : assemble source options = (layoutOf source options).link := rfl
    have hsome : (layoutOf source options).diagnostics.isEmpty = false := by simpa using hnone
    rw [hassemble, Assembly.Layout.link, hsome]
    rfl

end assemble

-- The END is refused, so the literal never gets an address, and linking does not ask for it.
example : assembleByTables "MAIN START\n LD GR1,=5\n END X\n" {} =
    some { diagnostics := [⟨2, "END takes no operands"⟩] } := by decide +kernel

end Comet
