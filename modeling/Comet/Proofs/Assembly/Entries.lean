import Comet.Proofs.Assembly.Image
import Comet.Proofs.Assembly.Rows
import Mathlib.Data.List.Dedup

namespace Comet

namespace AddressMap

/-- Each address has one entry, in front of those of all greater addresses. -/
def Ascending (entries : List (Word × Nat)) : Prop := entries.Pairwise fun e f => e.1 < f.1

theorem ascending_insertEntry {entries : List (Word × Nat)} (h : Ascending entries)
    (address : Word) (line : Nat) : Ascending (insertEntry address line entries) := by
  induction entries with
  | nil => exact List.pairwise_singleton _ _
  | cons entry rest ih =>
    obtain ⟨hentry, hrest⟩ := List.pairwise_cons.mp h
    unfold insertEntry
    by_cases hless : address < entry.1
    · rw [if_pos hless]
      refine .cons ?_ h
      intro e he
      rcases List.mem_cons.mp he with rfl | he
      · exact hless
      · exact UInt16.lt_trans hless (hentry e he)
    · rw [if_neg hless]
      by_cases hsame : address = entry.1
      · rw [if_pos hsame]
        subst hsame
        exact .cons hentry hrest
      · rw [if_neg hsame]
        have hgreater : entry.1 < address :=
          UInt16.lt_of_le_of_ne (UInt16.not_lt.mp hless) (Ne.symm hsame)
        refine .cons ?_ (ih hrest)
        intro e he
        rcases mem_insertEntry he with rfl | he
        · exact hgreater
        · exact hentry e he

theorem ascending_ofList (entries : List (Word × Nat)) : Ascending (ofList entries).entries := by
  have hfold (entries : List (Word × Nat)) (map : AddressMap) (h : Ascending map.entries) :
      Ascending (entries.foldl (fun map entry => map.insert entry.1 entry.2) map).entries := by
    induction entries generalizing map with
    | nil => exact h
    | cons entry rest ih => exact ih _ (ascending_insertEntry h _ _)
  exact hfold entries {} .nil

theorem nodup_keys_ofList (entries : List (Word × Nat)) :
    ((ofList entries).entries.map (·.1)).Nodup :=
  List.pairwise_map.mpr ((ascending_ofList entries).imp UInt16.ne_of_lt)

theorem mem_entries_iff {entries : List (Word × Nat)} {a : Word} {line : Nat} :
    (a, line) ∈ (ofList entries).entries ↔ entries.reverse.lookup a = some line := by
  rw [← get?_ofList]
  exact ⟨Assembly.lookup_of_mem (nodup_keys_ofList entries), mem_entries_of_get?⟩

/-- The map has as many entries as there are different addresses. -/
theorem length_ofList (entries : List (Word × Nat)) :
    (ofList entries).entries.length = (entries.map (·.1)).dedup.length := by
  have hkeys : ((ofList entries).entries.map (·.1)).Perm (entries.map (·.1)).dedup := by
    refine (List.perm_ext_iff_of_nodup (nodup_keys_ofList entries) (List.nodup_dedup _)).mpr ?_
    intro a
    rw [List.mem_dedup]
    constructor
    · intro ha
      obtain ⟨e, he, rfl⟩ := List.mem_map.mp ha
      exact List.mem_map_of_mem (mem_ofList he)
    · intro ha
      obtain ⟨line, hline⟩ : ∃ line, entries.reverse.lookup a = some line := by
        rw [← Option.isSome_iff_exists, List.lookup_isSome_iff]
        obtain ⟨e, he, rfl⟩ := List.mem_map.mp ha
        exact ⟨e, List.mem_reverse.mpr he, by simp⟩
      exact List.mem_map.mpr ⟨_, mem_entries_iff.mpr hline, rfl⟩
  simpa using hkeys.length_eq

theorem insertEntry_front {address : Word} {line : Nat} {entries : List (Word × Nat)}
    (h : ∀ e ∈ entries, address < e.1) :
    insertEntry address line entries = (address, line) :: entries := by
  cases entries with
  | nil => rfl
  | cons entry rest => rw [insertEntry, if_pos (h entry List.mem_cons_self)]

theorem insertEntry_back {address : Word} {line : Nat} {entries : List (Word × Nat)}
    (h : ∀ e ∈ entries, e.1 < address) :
    insertEntry address line entries = entries ++ [(address, line)] := by
  induction entries with
  | nil => rfl
  | cons entry rest ih =>
    have hless := h entry List.mem_cons_self
    rw [insertEntry, if_neg (UInt16.not_lt.mpr (UInt16.le_of_lt hless)),
      if_neg (UInt16.ne_of_lt hless).symm, ih fun e he => h e (List.mem_cons_of_mem _ he)]
    rfl

/-- Entries in ascending order make the same map from either end. -/
theorem ofList_of_ascending {entries : List (Word × Nat)} (h : Ascending entries) :
    ofList entries = ⟨entries⟩ ∧
      entries.foldr (fun e map => map.insert e.1 e.2) ({} : AddressMap) = ⟨entries⟩ := by
  constructor
  · have hfold (before behind : List (Word × Nat)) (h : Ascending (before ++ behind)) :
        behind.foldl (fun map entry => map.insert entry.1 entry.2) (AddressMap.mk before) =
          ⟨before ++ behind⟩ := by
      induction behind generalizing before with
      | nil => simp
      | cons entry rest ih =>
        have hgreater : ∀ e ∈ before, e.1 < entry.1 := fun e he =>
          (List.pairwise_append.mp h).2.2 e he entry List.mem_cons_self
        have hsplit : before ++ entry :: rest = before ++ [entry] ++ rest := by simp
        rw [List.foldl_cons, insert, insertEntry_back hgreater, hsplit]
        exact ih _ (hsplit ▸ h)
    exact hfold [] entries h
  · induction entries with
    | nil => rfl
    | cons entry rest ih =>
      obtain ⟨hless, hrest⟩ := List.pairwise_cons.mp h
      rw [List.foldr_cons, ih hrest, insert, insertEntry_front hless]

end AddressMap

namespace DebugMap

/-- The map is made of these subroutines and the addresses at which they are entered, in the order
of their START lines. -/
structure MadeOf (d : DebugMap) (table : List (Word × Subroutine)) : Prop where
  subroutineMap : d.subroutineMap = .ofList (table.map fun q => (q.1, q.2.startLine))
  subroutines : d.subroutines = table.map (·.2)
  ascending : table.Pairwise fun q r => q.2.startLine < r.2.startLine

namespace MadeOf

variable {d : DebugMap} {table : List (Word × Subroutine)}

theorem eq_of_startLine_eq (h : d.MadeOf table) {q r : Word × Subroutine} (hq : q ∈ table)
    (hr : r ∈ table) (hline : q.2.startLine = r.2.startLine) : q = r := by
  have hnodup : (table.map (·.2.startLine)).Nodup :=
    List.pairwise_map.mpr (h.ascending.imp Nat.ne_of_lt)
  exact List.inj_on_of_nodup_map hnodup hq hr hline

/-- A START line leads back to the subroutine that starts there. -/
theorem find?_startLine (h : d.MadeOf table) {q : Word × Subroutine} (hq : q ∈ table) :
    d.subroutines.find? (·.startLine == q.2.startLine) = some q.2 := by
  have hmem : q.2 ∈ d.subroutines := h.subroutines ▸ List.mem_map_of_mem hq
  cases hfound : d.subroutines.find? (·.startLine == q.2.startLine) with
  | none => simpa using List.find?_eq_none.mp hfound q.2 hmem
  | some sub =>
    have hline : sub.startLine = q.2.startLine := by simpa using List.find?_some hfound
    obtain ⟨r, hr, rfl⟩ := List.mem_map.mp (h.subroutines ▸ List.mem_of_find?_eq_some hfound)
    rw [h.eq_of_startLine_eq hr hq hline]

theorem lookup_map_snd {α β γ : Type} [BEq α] (f : β → γ) (xs : List (α × β)) (a : α) :
    (xs.map fun q => (q.1, f q.2)).lookup a = (xs.lookup a).map f := by
  induction xs with
  | nil => rfl
  | cons x rest ih =>
    rw [List.map_cons, List.lookup_cons, List.lookup_cons, ih]
    split <;> rfl

theorem get?_eq (h : d.MadeOf table) (a : Word) :
    d.subroutineMap.get? a = (table.reverse.lookup a).map (·.startLine) := by
  rw [h.subroutineMap, AddressMap.get?_ofList, ← List.map_reverse, lookup_map_snd]

/-- The last of the subroutines that are entered at an address is the one that is found there. -/
theorem subroutineAt_eq (h : d.MadeOf table) (a : Word) :
    d.subroutineAt a = table.reverse.lookup a := by
  rw [subroutineAt, h.get?_eq]
  cases hfound : table.reverse.lookup a with
  | none => rfl
  | some sub =>
    obtain ⟨before, behind, heq, -⟩ := List.lookup_eq_some_iff.mp hfound
    have hmem : (a, sub) ∈ table := List.mem_reverse.mp (by simp [heq])
    exact h.find?_startLine hmem

theorem isEntryLine_iff (h : d.MadeOf table) {q : Word × Subroutine} (hq : q ∈ table) :
    d.isEntryLine q.2.startLine = true ↔ d.subroutineAt q.1 = some q.2 := by
  have hentries {a : Word} {line : Nat} : (a, line) ∈ d.subroutineMap.entries ↔
      (table.reverse.lookup a).map (·.startLine) = some line := by
    rw [← h.get?_eq, h.subroutineMap, AddressMap.mem_entries_iff, AddressMap.get?_ofList]
  rw [isEntryLine, AddressMap.hasLine_iff, h.subroutineAt_eq]
  constructor
  · rintro ⟨a, ha⟩
    obtain ⟨sub, hsub, hline⟩ := Option.map_eq_some_iff.mp (hentries.mp ha)
    obtain ⟨before, behind, heq, -⟩ := List.lookup_eq_some_iff.mp hsub
    have hmem : (a, sub) ∈ table := List.mem_reverse.mp (by simp [heq])
    obtain rfl := h.eq_of_startLine_eq hmem hq hline
    exact hsub
  · intro hfound
    exact ⟨q.1, hentries.mpr (by rw [hfound]; rfl)⟩

/-- A subroutine is found at its entry unless one behind it is entered there too. -/
theorem subroutineAt_eq_some_iff (h : d.MadeOf table) {before behind : List (Word × Subroutine)}
    {q : Word × Subroutine} (htable : table = before ++ q :: behind) :
    d.subroutineAt q.1 = some q.2 ↔ q.1 ∉ behind.map (·.1) := by
  have hreverse : table.reverse = behind.reverse ++ q :: before.reverse := by simp [htable]
  rw [h.subroutineAt_eq, hreverse, List.lookup_append, List.lookup_cons_self]
  constructor
  · intro hfound hbehind
    obtain ⟨r, hr, hentry⟩ := List.mem_map.mp hbehind
    obtain ⟨sub, hsub⟩ : ∃ sub, behind.reverse.lookup q.1 = some sub := by
      rw [← Option.isSome_iff_exists, List.lookup_isSome_iff]
      exact ⟨r, List.mem_reverse.mpr hr, by simp [hentry]⟩
    rw [hsub, Option.some_or] at hfound
    cases hfound
    obtain ⟨first, last, heq, -⟩ := List.lookup_eq_some_iff.mp hsub
    have hmem : (q.1, q.2) ∈ behind := List.mem_reverse.mp (by simp [heq])
    have hascending := h.ascending
    rw [htable] at hascending
    have hlater := (List.pairwise_cons.mp (List.pairwise_append.mp hascending).2.1).1 q hmem
    exact Nat.lt_irrefl _ hlater
  · intro hbehind
    have hnone : behind.reverse.lookup q.1 = none := by
      rw [List.lookup_eq_none_iff]
      intro r hr
      apply bne_iff_ne.mpr
      intro hentry
      exact hbehind (List.mem_map.mpr ⟨r, List.mem_reverse.mp hr, hentry.symm⟩)
    rw [hnone, Option.none_or]

theorem length_subroutineMap (h : d.MadeOf table) :
    d.subroutineMap.entries.length = (table.map (·.1)).dedup.length := by
  rw [h.subroutineMap, AddressMap.length_ofList, List.map_map]
  rfl

end MadeOf

end DebugMap

/-- To the debugger, what is entered at the address is this subroutine: a call that arrives there
enters it, and leaving its START line executes nothing. -/
structure Program.Recognizes (p : Program) (q : Word × Subroutine) : Prop where
  found : p.debug.subroutineAt q.1 = some q.2
  entered : ∀ (s t : LineStepper) (line : Nat), s.program = some p →
    p.debug.isEntryLine line = false → s.machine.nextKind = .ok .call →
    s.execute = (.ok false, t) → t.machine.pr = q.1 →
    s.stepLine line =
      (.ok (.moved (some q.2.startLine)), { t with stack := t.stack.enter line q.2.name })
  passed : ∀ s : LineStepper, s.program = some p →
    s.stepLine q.2.startLine = (.ok (.moved (some (q.2.startLine + 1))), s)

theorem Program.recognizes_of_found {p : Program} {q : Word × Subroutine}
    (hfound : p.debug.subroutineAt q.1 = some q.2)
    (hentry : p.debug.isEntryLine q.2.startLine = true) : p.Recognizes q := by
  refine ⟨hfound, ?_, ?_⟩
  · intro s t line hp hline hkind hexecute hpr
    simp [LineStepper.stepLine, LineStepper.settle, hp, hline, hkind, hexecute, hpr, hfound]
  · intro s hp
    simp [LineStepper.stepLine, hp, hentry]

namespace Assembly

/-- The block starts execution at the address, which is also what its name means to every block
without a label of that name. -/
structure ListingBlock.CalledAt (options : AssemblyOptions) (blocks : List ListingBlock)
    (b : ListingBlock) (e : Word) : Prop where
  enters : ∀ a, b.EntersAt options blocks a ↔ a = e.toNat
  named : ∀ c ∈ blocks, (∀ l ∈ c.body, l.label ≠ some b.name) →
    ∀ a, Names options blocks c b.name a ↔ a = e.toNat

/-- The block has words, and starts execution at one of them. -/
def ListingBlock.EnteredWithin (options : AssemblyOptions) (blocks : List ListingBlock)
    (b : ListingBlock) : Prop :=
  ∃ a, b.EntersAt options blocks a ∧ b.origin ≤ a ∧ a < b.origin + b.slots.length

/-- The debug map of a program, by the table of its blocks: for each the address at which it is
entered, with its name and its START line. -/
structure EntryTable (options : AssemblyOptions) (blocks : List ListingBlock) (p : Program)
    (table : List (Word × Subroutine)) : Prop where
  called : List.Forall₂ (fun b q => q.2.name = b.name ∧ b.CalledAt options blocks q.1) blocks table
  subroutines : p.debug.subroutines = table.map (·.2)
  found : ∀ a, p.debug.subroutineAt a = table.reverse.lookup a
  recognized : ∀ before q behind, table = before ++ q :: behind →
    (p.Recognizes q ↔ q.1 ∉ behind.map (·.1))
  entryLine : ∀ before q behind, table = before ++ q :: behind →
    (p.debug.isEntryLine q.2.startLine = true ↔ q.1 ∉ behind.map (·.1))
  size : p.debug.subroutineMap.entries.length = (table.map (·.1)).dedup.length
  apart : p.debug.subroutineMap.entries.length = blocks.length ∧ (∀ q ∈ table, p.Recognizes q) ↔
    (table.map (·.1)).Nodup
  within : (∀ b ∈ blocks, b.EnteredWithin options blocks) → (table.map (·.1)).Nodup

section blocks

variable {options : AssemblyOptions} {blocks : List ListingBlock} {s : Layout}

theorem Layout.Realizes.calledAt {lb : ListingBlock} {b : ClosedBlock}
    (hs : s.Realizes options blocks none) (hlb : lb ∈ blocks)
    (hb : b.Realizes options s.globals blocks lb) : lb.CalledAt options blocks b.entry := by
  refine ⟨fun a => hs.entersAt_iff hlb hb, ?_⟩
  intro c hc hown a
  obtain ⟨cb, -, hcb⟩ := hs.exists_closed hc
  obtain ⟨w, hw, hentry⟩ :=
    hs.resolve_of_names hc (.block hown hlb hb.enters) hcb.toRealizes
  rw [← hentry]
  exact hs.names_iff hc hcb.toRealizes hw a

/-- Blocks do not overlap, so entries within them are in the order of the blocks. -/
theorem BlocksFrom.entries_ascending {location : Nat} {entries : List Word}
    (h : BlocksFrom location blocks)
    (hentries : List.Forall₂ (fun b (e : Word) => b.origin ≤ e.toNat ∧
      e.toNat < b.origin + b.slots.length) blocks entries) :
    (∀ e ∈ entries, location ≤ e.toNat) ∧ entries.Pairwise fun e f => e.toNat < f.toNat := by
  induction hentries generalizing location with
  | nil => exact ⟨nofun, .nil⟩
  | cons hfirst hrest ih =>
    obtain ⟨rfl, -, hbehind⟩ := h
    obtain ⟨hfrom, hpairs⟩ := ih hbehind
    refine ⟨?_, .cons ?_ hpairs⟩
    · intro e he
      rcases List.mem_cons.mp he with rfl | he
      · exact hfirst.1
      · have hlater := hfrom e he
        omega
    · intro e he
      have hlater := hfrom e he
      omega

/-- The entries of the blocks of a layout, with what they are the entries of. -/
def Layout.entryTable (s : Layout) : List (Word × Subroutine) :=
  s.blocks.map fun b => (b.entry, b.toBlock.heading)

theorem Layout.madeOf_entryTable
    (hascending :
      (s.blocks.map (·.toBlock.heading)).Pairwise fun a b => a.startLine < b.startLine) :
    s.program.debug.MadeOf s.entryTable := by
  refine ⟨?_, ?_, ?_⟩
  · simp only [program, debugMap, entryTable, List.map_map]
    rfl
  · simp only [program, debugMap, entryTable, List.map_map]
    rfl
  · have hblocks := List.pairwise_map.mp hascending
    exact List.pairwise_map.mpr hblocks

theorem Layout.Realizes.entryTable (hs : s.Realizes options blocks none)
    (hfrom : BlocksFrom 0 blocks) (hmade : s.program.debug.MadeOf s.entryTable) :
    EntryTable options blocks s.program s.entryTable := by
  have hcalled : List.Forall₂ (fun b q => q.2.name = b.name ∧ b.CalledAt options blocks q.1)
      blocks s.entryTable := by
    rw [Layout.entryTable, List.forall₂_map_right_iff]
    refine (forall₂_with_mem (List.Forall₂.flip hs.closed)).imp ?_
    rintro lb b ⟨hlb, -, hb⟩
    exact ⟨hb.name, hs.calledAt hlb hb⟩
  have hrecognized : ∀ before q behind, s.entryTable = before ++ q :: behind →
      (s.program.Recognizes q ↔ q.1 ∉ behind.map (·.1)) := by
    intro before q behind htable
    have hq : q ∈ s.entryTable := by simp [htable]
    rw [← hmade.subroutineAt_eq_some_iff htable]
    constructor
    · exact fun hknown => hknown.found
    · exact fun hfound => Program.recognizes_of_found hfound ((hmade.isEntryLine_iff hq).mpr hfound)
  refine ⟨hcalled, hmade.subroutines, hmade.subroutineAt_eq, hrecognized, ?_,
    hmade.length_subroutineMap, ?_, ?_⟩
  · intro before q behind htable
    rw [hmade.isEntryLine_iff (by simp [htable]), hmade.subroutineAt_eq_some_iff htable]
  · have hlength : blocks.length = (s.entryTable.map (·.1)).length := by
      rw [List.length_map, hcalled.length_eq]
    rw [hmade.length_subroutineMap, hlength]
    constructor
    · rintro ⟨hsize, -⟩
      exact List.dedup_eq_self.mp ((List.dedup_sublist _).eq_of_length hsize)
    · intro hnodup
      refine ⟨by rw [List.dedup_eq_self.mpr hnodup], fun q hq => ?_⟩
      obtain ⟨before, behind, htable⟩ := List.append_of_mem hq
      refine (hrecognized before q behind htable).mpr ?_
      rw [htable, List.map_append, List.map_cons] at hnodup
      exact (List.nodup_cons.mp (List.nodup_append.mp hnodup).2.1).1
  · intro hwithin
    have hbounds : List.Forall₂ (fun b (e : Word) => b.origin ≤ e.toNat ∧
        e.toNat < b.origin + b.slots.length) blocks (s.entryTable.map (·.1)) := by
      rw [List.forall₂_map_right_iff]
      refine (forall₂_with_mem hcalled).imp ?_
      rintro b q ⟨hb, -, -, hq⟩
      obtain ⟨a, henters, hlow, hhigh⟩ := hwithin b hb
      obtain rfl := (hq.enters a).mp henters
      exact ⟨hlow, hhigh⟩
    have hpairs := (hfrom.entries_ascending hbounds).2
    exact hpairs.imp fun hlt heq => Nat.ne_of_lt hlt (congrArg UInt16.toNat heq)

end blocks

end Assembly

section assemble

variable {source : String} {options : AssemblyOptions}

/-- Each block is a subroutine of its own to the debugger exactly if no two blocks are entered at
one address. Of those that are, only the last one is known. -/
theorem own_subroutines_iff_entered_apart (h : (assemble source options).diagnostics = []) :
    ∃ p blocks table, (assemble source options).program = some p ∧
      listing source options = some blocks ∧
      p.debug.subroutines = headings source options ∧
      Assembly.EntryTable options blocks p table := by
  obtain ⟨-, hassemble⟩ := assemble_eq_program h
  obtain ⟨blocks, hlisted, hs, hfrom⟩ := listing_of_assemble h
  have hascending : ((layoutOf source options).blocks.map (·.toBlock.heading)).Pairwise
      fun a b => a.startLine < b.startLine := by
    rw [headings_of_assemble h]
    exact Assembly.headingsFrom_ascending _ _ _
  exact ⟨_, blocks, _, by rw [hassemble], hlisted, subroutines_of_assemble h,
    hs.entryTable hfrom (Assembly.Layout.madeOf_entryTable hascending)⟩

end assemble

/-- The second block has no words of its own, so the third is entered where it is. -/
def emptyBlockSource : String :=
  "MAIN START\n CALL SUB\n RET\n END\nSUB START\n END\nNEXT START\n RET\n END\n"

theorem empty_block_own_subroutines : (assemble emptyBlockSource {}).diagnostics = [] ∧
    ∃ p blocks table, (assemble emptyBlockSource {}).program = some p ∧
      listing emptyBlockSource {} = some blocks ∧
      p.debug.subroutines = headings emptyBlockSource {} ∧
      Assembly.EntryTable {} blocks p table := by
  have hnone : (assemble emptyBlockSource {}).diagnostics = [] := by decide +kernel
  exact ⟨hnone, own_subroutines_iff_entered_apart hnone⟩

/-- The third block is entered at the second one. -/
def aliasSource : String :=
  "MAIN START\n CALL SUB\n RET\n END\nSUB START\n LAD GR1,1\n RET\n END\n" ++
    "ALIAS START SUB\n RET\n END\n"

/-- What the stepper makes of the source at the line of its call. -/
def aliasCall : Except StepError LineStep × LineStepper :=
  (LineStepper.launch {} (assemble aliasSource {}) {}).2.stepLine 1

/-- A call to the second of three blocks enters a frame of the third. -/
theorem call_enters_other_block : (assemble aliasSource {}).diagnostics = [] ∧
    (listing aliasSource {}).map (·.map (·.name)) = some ["MAIN", "SUB", "ALIAS"] ∧
    (assemble aliasSource {}).program.map (·.debug.subroutineMap.entries.length) = some 2 ∧
    (assemble aliasSource {}).program.map (·.debug.isEntryLine 4) = some false ∧
    (assemble aliasSource {}).program.map (·.debug.subroutineAt 3) = some (some ⟨"ALIAS", 8⟩) ∧
    aliasCall.1 = .ok (.moved (some 8)) ∧ aliasCall.2.machine.pr = 3 ∧
    aliasCall.2.stack.frames.map (·.subroutine) = ["ALIAS", "MAIN"] := by
  decide +kernel

end Comet
