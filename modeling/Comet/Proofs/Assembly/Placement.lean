import Comet.Proofs.Assembly.LineMap
import Comet.Proofs.Assembly.Rows
import Comet.Proofs.Machine.StraightLine

namespace Comet

namespace Memory

theorem readAll_append_iff {memory : Memory} {a : Word} {xs ys : List Word} :
    memory.readAll a (xs ++ ys).length = xs ++ ys ↔
      memory.readAll a xs.length = xs ∧
        memory.readAll (a + .ofNat xs.length) ys.length = ys := by
  have hsplit : memory.readAll a (xs ++ ys).length =
      memory.readAll a xs.length ++ memory.readAll (a + .ofNat xs.length) ys.length := by
    simp only [readAll, List.length_append, List.range_add, List.map_append, List.map_map,
      Function.comp_def, UInt16.ofNat_add, UInt16.add_assoc]
  rw [hsplit]
  constructor
  · intro h
    exact List.append_inj h (by simp [readAll])
  · rintro ⟨hxs, hys⟩
    rw [hxs, hys]

theorem readAll_cons_iff {memory : Memory} {a w : Word} {ws : List Word} :
    memory.readAll a (w :: ws).length = w :: ws ↔
      memory.read a = w ∧ memory.readAll (a + 1) ws.length = ws := by
  rw [← List.singleton_append, readAll_append_iff]
  simp [readAll]

/-- A loaded program is in memory, as far as it has words. -/
theorem readAll_load (ws : List Word) (a n : Nat) (h : a + n ≤ ws.length)
    (hroom : a + n ≤ memorySize) :
    (load ws).readAll (.ofNat a) n = (ws.drop a).take n := by
  apply List.ext_getElem
  · simp only [readAll, List.length_map, List.length_range, List.length_take, List.length_drop]
    omega
  · intro k hk hk'
    have hkn : k < n := by simpa [readAll] using hk
    have haddress : (UInt16.ofNat a + .ofNat k).toNat = a + k := by
      rw [← UInt16.ofNat_add, UInt16.toNat_ofNat_of_lt' (show a + k < memorySize by omega)]
    simp only [readAll, List.getElem_map, List.getElem_range, List.getElem_take, List.getElem_drop]
    rw [read_load, haddress, List.getD_eq_getElem?_getD, List.getElem?_eq_getElem (by omega),
      Option.getD_some]

end Memory

namespace Assembly

section listed

variable {options : AssemblyOptions} {last : Option ListingBlock} {location line : Nat}
  {texts : List (List Char)} {blocks : List ListingBlock}

/-- The second block is what has become of the first. -/
structure ListingBlock.Continues (b c : ListingBlock) : Prop where
  name : c.name = b.name
  body : b.body ⊆ c.body

theorem ListingBlock.Continues.trans {a b c : ListingBlock} (hab : a.Continues b)
    (hbc : b.Continues c) : a.Continues c :=
  ⟨hbc.name.trans hab.name, List.Subset.trans hab.body hbc.body⟩

theorem ListingBlock.continues_addLine (b : ListingBlock) (l : ListingLine) :
    b.Continues (b.addLine l) :=
  ⟨rfl, fun _ hl => List.mem_append_left _ hl⟩

/-- What the open block has listed stays in it until it is closed. -/
theorem Lists.exists_continued (h : Lists options last location line texts blocks) :
    ∀ b ∈ last, ∃ c ∈ blocks, b.Continues c := by
  induction h with
  | done | start => exact nofun
  | blank _ _ ih => exact ih
  | @body b _ _ _ _ _ _ _ _ _ ih =>
    rintro _ ⟨⟩
    obtain ⟨c, hc, hcontinues⟩ := ih _ rfl
    exact ⟨c, hc, (b.continues_addLine _).trans hcontinues⟩
  | finish =>
    rintro b ⟨⟩
    exact ⟨_, List.mem_cons_self, rfl, fun _ => id⟩

/-- A line that puts something into memory is listed in a block. -/
theorem exists_mem_body_of_listFrom {k : Nat} {text : List Char} {label : Option String}
    {content : Content} (h : listFrom options last location line texts = some blocks)
    (htext : texts[k]? = some text)
    (hrow : Row.ofLine? options text = some (some (.body label content))) :
    ∃ b ∈ blocks, ∃ a, ⟨line + k, a, label, content⟩ ∈ b.body := by
  rw [listFrom_eq_some_iff] at h
  induction h generalizing k with
  | done => cases htext
  | blank hfirst _ ih | start hfirst _ ih =>
    cases k with
    | zero =>
      cases htext
      cases hfirst.symm.trans hrow
    | succ k =>
      rw [Nat.add_comm k, ← Nat.add_assoc]
      exact ih htext
  | @body b location _ _ _ _ _ _ hfirst hrest ih =>
    cases k with
    | zero =>
      cases htext
      cases hfirst.symm.trans hrow
      obtain ⟨c, hc, hcontinues⟩ := hrest.exists_continued _ rfl
      exact ⟨c, hc, location,
        hcontinues.body (List.mem_append_right b.body List.mem_cons_self)⟩
    | succ k =>
      rw [Nat.add_comm k, ← Nat.add_assoc]
      exact ih htext
  | finish hfirst _ ih =>
    cases k with
    | zero =>
      cases htext
      cases hfirst.symm.trans hrow
    | succ k =>
      rw [Nat.add_comm k, ← Nat.add_assoc]
      obtain ⟨c, hc, hl⟩ := ih htext
      exact ⟨c, List.mem_cons_of_mem _ hc, hl⟩

end listed

section words

variable {options : AssemblyOptions} {blocks : List ListingBlock} {b : ListingBlock}
  {l : ListingLine} {code : List Word}

theorem LinesFrom.exists_before {location : Nat} {body : List ListingLine}
    (h : LinesFrom location body) (hl : l ∈ body) : ∃ before behind,
      body = before ++ l :: behind ∧
        l.location = location + (before.flatMap (·.content.cells)).length := by
  induction body generalizing location with
  | nil => cases hl
  | cons first rest ih =>
    obtain ⟨hfirst, hrest⟩ := h
    rcases List.mem_cons.mp hl with rfl | hmem
    · exact ⟨[], rest, rfl, hfirst⟩
    · obtain ⟨before, behind, rfl, hlocation⟩ := ih hrest hmem
      refine ⟨first :: before, behind, rfl, ?_⟩
      rw [hlocation, List.flatMap_cons, List.length_append, Nat.add_assoc]

/-- The words of a line stand together in the image, from the location of the line on. -/
theorem BlocksFrom.exists_line (h : BlocksFrom 0 blocks) (hb : b ∈ blocks) (hl : l ∈ b.body) :
    ∃ before behind, l.location = before.length ∧
      image blocks = before ++ l.content.slots b l.line ++ behind := by
  obtain ⟨hsound, before, behind, rfl, hbegins⟩ := h.exists_before hb
  obtain ⟨above, below, hbody, hlocation⟩ := hsound.counted.exists_before hl
  refine ⟨image before ++ above.flatMap fun l => l.content.slots b l.line,
    below.flatMap (fun l => l.content.slots b l.line) ++
      b.literals.flatten.map (fun w => ⟨b, .value w, none⟩) ++ image behind, ?_, ?_⟩
  · rw [hlocation, hbegins]
    simp only [List.length_append, List.length_flatMap, Content.length_slots, Nat.zero_add]
  · rw [image_append, image_cons, ListingBlock.slots, hbody]
    simp only [List.flatMap_append, List.flatMap_cons, List.append_assoc]

/-- The code has what a line denotes where the listing has the line. -/
theorem Image.line_words (h : Image options blocks code) (hb : b ∈ blocks) (hl : l ∈ b.body) :
    List.Forall₂ (Denotes options blocks b) l.content.cells
      ((code.drop l.location).take l.content.cells.length) := by
  obtain ⟨before, behind, hlocation, himage⟩ := h.counted.exists_line hb hl
  have hrun := List.forall₂_take l.content.cells.length (List.forall₂_drop l.location h.words)
  rw [himage, hlocation, List.append_assoc, List.drop_left,
    List.take_left' (l.content.length_slots b l.line)] at hrun
  have hcells : List.Forall₂ (fun slot w => Denotes options blocks b slot.cell w)
      (l.content.slots b l.line) ((code.drop before.length).take l.content.cells.length) := by
    refine (forall₂_with_mem hrun).imp ?_
    rintro slot w ⟨hslot, -, hdenotes⟩
    rwa [Content.block_of_mem_slots hslot] at hdenotes
  rw [hlocation]
  generalize (code.drop before.length).take l.content.cells.length = ws at hcells ⊢
  rwa [← l.content.map_cell_slots b l.line, List.forall₂_map_left_iff]

end words

section decoded

variable {options : AssemblyOptions} {blocks : List ListingBlock} {b : ListingBlock}
  {i : SymbolicInstruction} {is : List SymbolicInstruction} {ws : List Word}

/-- The instruction is decoded from what it denotes, whatever follows it. -/
theorem SymbolicInstruction.WellFormed.exists_decoded (hi : i.WellFormed)
    (h : List.Forall₂ (Denotes options blocks b) i.cells ws) :
    ∃ d, i.Decoded options blocks b d ∧ ∀ (memory : Memory) (a : Word),
      memory.readAll a ws.length = ws →
        Instruction.decode (memory.read a) (memory.read (a + 1)) = some d := by
  obtain ⟨w, rest, hw, hrest, rfl⟩ := List.forall₂_cons_left_iff.mp h
  obtain rfl : w = Instruction.encode i.opcode i.r i.x := hw
  cases hoperand : i.operand with
  | none =>
    refine ⟨⟨i.mnemonic, i.r, i.x, none⟩, ⟨rfl, rfl, rfl, hoperand ▸ .none, ?_⟩, ?_⟩
    · simp [Instruction.size, cells, hoperand]
    · intro memory a hmemory
      rw [(Memory.readAll_cons_iff.mp hmemory).1, hi.decode_encode, hoperand]
      rfl
  | some c =>
    rw [hoperand] at hrest
    obtain ⟨v, _, hv, hnil, rfl⟩ := List.forall₂_cons_left_iff.mp hrest
    obtain rfl := List.forall₂_nil_left_iff.mp hnil
    refine ⟨⟨i.mnemonic, i.r, i.x, some v⟩, ⟨rfl, rfl, rfl, hoperand ▸ .some hv, ?_⟩, ?_⟩
    · simp [Instruction.size, cells, hoperand]
    · intro memory a hmemory
      obtain ⟨hfirst, hsecond⟩ := Memory.readAll_cons_iff.mp hmemory
      rw [hfirst, (Memory.readAll_cons_iff.mp hsecond).1, hi.decode_encode, hoperand]
      rfl

/-- A memory that holds what the instructions denote has them as its code. -/
theorem exists_hasCode (his : ∀ i ∈ is, i.WellFormed)
    (h : List.Forall₂ (Denotes options blocks b) (is.flatMap (·.cells)) ws) :
    ∃ ds, List.Forall₂ (SymbolicInstruction.Decoded options blocks b) is ds ∧
      ∀ (memory : Memory) (a : Word), memory.readAll a ws.length = ws → memory.HasCode a ds := by
  induction is generalizing ws with
  | nil => exact ⟨[], .nil, fun _ _ _ => trivial⟩
  | cons i rest ih =>
    obtain ⟨hi, hrest⟩ := List.forall_mem_cons.mp his
    rw [List.flatMap_cons] at h
    have hlength := h.length_eq
    rw [List.length_append] at hlength
    have hfirst := List.forall₂_take i.cells.length h
    have hothers := List.forall₂_drop i.cells.length h
    rw [List.take_left] at hfirst
    rw [List.drop_left] at hothers
    obtain ⟨d, hd, hdecode⟩ := hi.exists_decoded hfirst
    obtain ⟨ds, hds, hcode⟩ := ih hrest hothers
    refine ⟨d :: ds, .cons hd hds, ?_⟩
    intro memory a hmemory
    rw [← List.take_append_drop i.cells.length ws, Memory.readAll_append_iff] at hmemory
    obtain ⟨hhead, htail⟩ := hmemory
    refine ⟨hdecode memory a hhead, ?_⟩
    rw [List.length_take_of_le (by omega), ← hd.size, UInt16.ofNat_toNat, hd.size] at htail
    exact hcode memory _ htail

namespace SymbolicInstruction

variable {d : Instruction} {m : Mnemonic} {r x : RegisterField}

theorem Decoded.eq (h : i.Decoded options blocks b d) : d = ⟨i.mnemonic, i.r, i.x, d.adr⟩ := by
  rw [← h.mnemonic, ← h.r, ← h.x]

theorem Decoded.eq_none (h : Decoded options blocks b ⟨m, r, x, none⟩ d) : d = ⟨m, r, x, none⟩ := by
  have hadr := h.adr
  rw [h.eq]
  cases hd : d.adr with
  | none => rfl
  | some w =>
    rw [hd] at hadr
    cases hadr

theorem Decoded.eq_some {c : Cell}
    (h : Decoded options blocks b ⟨m, r, x, some c⟩ d) :
    ∃ w, Denotes options blocks b c w ∧ d = ⟨m, r, x, some w⟩ := by
  have hadr := h.adr
  rw [h.eq]
  cases hd : d.adr with
  | none =>
    rw [hd] at hadr
    cases hadr
  | some w =>
    rw [hd] at hadr
    cases hadr with
    | some hw => exact ⟨w, hw, rfl⟩

end SymbolicInstruction

end decoded

/-- Every statement that neither opens nor closes a block has a content. -/
theorem Row.Reads.exists_content {options : AssemblyOptions} {st : Statement} {row : Row}
    (h : Reads options st row) (hstart : st.opcode ≠ "START") (hend : st.opcode ≠ "END") :
    ∃ content, Content.read? options st.opcode st.operands = some content ∧
      row = .body st.label content := by
  cases h with
  | start => exact absurd rfl hstart
  | body _ _ hcontent => exact ⟨_, hcontent, rfl⟩
  | finish => exact absurd rfl hend

end Assembly

/-- The machine is about to execute what the code has at the location, which is in its memory. -/
structure Machine.AtCode (m : Machine) (code : List Word) (a count : Nat) : Prop where
  running : m.halted = false
  pr : m.pr = .ofNat a
  words : m.memory.readAll m.pr count = (code.drop a).take count

section assemble

open Assembly

variable {source : String} {options : AssemblyOptions} {n : Nat} {text : List Char}

/-- The line is listed in the block at the location, and these are its words in the code. -/
structure Placed (source : String) (options : AssemblyOptions) (code : List Word) (n : Nat)
    (label : Option String) (content : Content) (blocks : List ListingBlock) (b : ListingBlock)
    (a : Nat) : Prop where
  listed : listing source options = some blocks
  block : b ∈ blocks
  line : ⟨n, a, label, content⟩ ∈ b.body
  words : List.Forall₂ (Denotes options blocks b) content.cells
    ((code.drop a).take content.cells.length)

/-- What a line of an accepted source has for memory is placed in the program. -/
theorem exists_placed (h : (assemble source options).diagnostics = []) {label : Option String}
    {content : Content} (htext : (Text.lines source.toList)[n]? = some text)
    (hrow : Row.ofLine? options text = some (some (.body label content))) :
    ∃ p blocks b a, (assemble source options).program = some p ∧
      Placed source options p.code n label content blocks b a := by
  obtain ⟨-, hassemble⟩ := assemble_eq_program h
  obtain ⟨blocks, hlisted, hrealizes, hfrom⟩ := listing_of_assemble h
  obtain ⟨b, hb, a, hl⟩ := exists_mem_body_of_listFrom hlisted htext hrow
  rw [Nat.zero_add] at hl
  have hwords := (hrealizes.image_of_assemble h hfrom).line_words hb hl
  exact ⟨_, blocks, b, a, by rw [hassemble], hlisted, hb, hl, hwords⟩

theorem exists_placed_of_statement (h : (assemble source options).diagnostics = [])
    {st : Statement} (htext : (Text.lines source.toList)[n]? = some text)
    (hst : Statement.ofLine text = .ok (some st)) (hstart : st.opcode ≠ "START")
    (hend : st.opcode ≠ "END") : ∃ p content blocks b a,
      (assemble source options).program = some p ∧
        Content.read? options st.opcode st.operands = some content ∧
        Placed source options p.code n st.label content blocks b a := by
  obtain ⟨row, hrow⟩ := rows_of_assemble h text (List.mem_of_getElem? htext)
  obtain ⟨row, rfl, hreads⟩ := Row.exists_row_of_statement hst hrow
  obtain ⟨content, hcontent, rfl⟩ := hreads.exists_content hstart hend
  obtain ⟨p, blocks, b, a, hp, hplaced⟩ := exists_placed h htext hrow
  exact ⟨p, content, blocks, b, a, hp, hcontent, hplaced⟩

/-- Instructions that are placed are those of a machine that is about to execute them. -/
theorem Placed.exists_hasCode {code : List Word} {label : Option String}
    {is : List SymbolicInstruction} {blocks : List ListingBlock} {b : ListingBlock} {a : Nat}
    (h : Placed source options code n label (.code is) blocks b a)
    (hwell : (Content.code is).WellFormed) :
    ∃ ds, List.Forall₂ (SymbolicInstruction.Decoded options blocks b) is ds ∧
      ∀ m : Machine, m.AtCode code a (is.flatMap (·.cells)).length →
        m.memory.HasCode m.pr ds := by
  obtain ⟨ds, hds, hcode⟩ := Assembly.exists_hasCode hwell h.words
  refine ⟨ds, hds, fun m hm => hcode m.memory m.pr ?_⟩
  rw [← h.words.length_eq]
  exact hm.words

/-- None of the words of a line that has any is behind the end of the program. -/
theorem Placed.fits {code : List Word} {label : Option String} {content : Content}
    {blocks : List ListingBlock} {b : ListingBlock} {a : Nat}
    (h : Placed source options code n label content blocks b a)
    (hcells : 0 < content.cells.length) : a + content.cells.length ≤ code.length := by
  have hcount := h.words.length_eq
  rw [List.length_take, List.length_drop] at hcount
  omega

end assemble

end Comet
