import Comet.Proofs.Assembly.ConstantGrammar
import Comet.Proofs.Assembly.Insertion

namespace Comet

theorem Mnemonic.operation_of_name (m : Mnemonic) :
    Assembly.Operation.ofName? m.name = some (.machine m) := by
  have hall : ∀ m ∈ all, Assembly.Operation.ofName? m.name = some (.machine m) := by decide
  exact hall m m.mem_all

theorem Mnemonic.name_ne (m : Mnemonic) : m.name ≠ "START" ∧ m.name ≠ "END" := by
  have hall : ∀ m ∈ all, m.name ≠ "START" ∧ m.name ≠ "END" := by decide
  exact hall m m.mem_all

namespace Assembly

/-- The label is the address in these operands, which have a register for the field `r` and one for
the index, or none. -/
inductive AddressedBy (options : AssemblyOptions) (name : String) :
    OperandForm → List String → RegisterField → RegisterField → Prop
  | registerAddress {text : String} {r x : RegisterField} (index : Option String)
      (hr : Pass.register options text = .ok r) (hx : Pass.indexRegister options index = .ok x) :
      AddressedBy options name .registerAddress (text :: name :: index.toList) r x
  | registerOrAddress {text : String} {r x : RegisterField} (index : Option String)
      (hr : Pass.register options text = .ok r) (hx : Pass.indexRegister options index = .ok x) :
      AddressedBy options name .registerAddressOrRegister (text :: name :: index.toList) r x
  | address {x : RegisterField} (index : Option String)
      (hx : Pass.indexRegister options index = .ok x) :
      AddressedBy options name .address (name :: index.toList) 0 x

/-- The label is the second of two operands where a register may stand, and looks like one. -/
def TakenForRegister (name : String) (form : OperandForm) (operands : List String) : Prop :=
  form = .registerAddressOrRegister ∧ operands.length = 2 ∧ looksLikeRegister name.toList = true

section reading

variable {options : AssemblyOptions} {name text : String} {m : Mnemonic} {operands : List String}
  {r x : RegisterField}

theorem addressOperand_of_isLabel (h : isLabel name.toList = true) :
    addressOperand name.toList = .ok (.label name) := by
  have hconstant := constant_of_isLabel h
  have hplain (rest : List Char) : name.toList ≠ '=' :: rest := by
    intro hliteral
    rw [hliteral] at h
    exact absurd h (by simp [isLabel])
  unfold addressOperand
  split
  · exact absurd ‹_› (hplain _)
  · rw [hconstant, String.ofList_toList]
    rfl

theorem AddressedBy.reads (h : AddressedBy options name m.form operands r x)
    (hname : isLabel name.toList = true) (hfree : ¬ TakenForRegister name m.form operands) :
    SymbolicInstruction.Reads options m operands ⟨m, r, x, some (.label name)⟩ := by
  have hadr := addressOperand_of_isLabel hname
  generalize hform : m.form = form at h hfree
  cases h with
  | registerAddress index hr hx =>
    exact .registerAddress index hform (register?_eq_some_iff.mpr hr) hadr
      (index?_eq_some_iff.mpr hx)
  | registerOrAddress index hr hx =>
    refine .registerOrAddress index hform ?_ (register?_eq_some_iff.mpr hr) hadr
      (index?_eq_some_iff.mpr hx)
    rintro rfl
    exact Bool.eq_false_iff.mpr fun hlike => hfree ⟨rfl, rfl, hlike⟩
  | address index hx => exact .address index hform hadr (index?_eq_some_iff.mpr hx)

/-- A line with nothing but an instruction is read as that. -/
theorem understood_of_reads {text : List Char} {i : SymbolicInstruction}
    (htext : Statement.ofLine text = .ok (some ⟨none, m.name, operands⟩))
    (hreads : SymbolicInstruction.Reads options m operands i) :
    Understood options text (some (.body none (.code [i]))) where
  row := by
    obtain ⟨hstart, hend⟩ := m.name_ne
    have hcontent : Content.read? options m.name operands = some (.code [i]) :=
      Content.read?_eq_some_iff.mpr ⟨_, m.operation_of_name, .machine hreads⟩
    exact Row.ofLine?_eq_some_iff.mpr
      (Or.inr ⟨_, _, htext, rfl, .body hstart hend hcontent⟩)
  label st hst := by
    rw [htext] at hst
    rw [← Option.some.inj (Except.ok.inj hst)]
    exact fun l hl => absurd hl (Option.not_mem_none l)

/-- The names of registers end at `GR8`, so one label is left that looks like a register. -/
theorem eq_of_looksLikeRegister (hname : isLabel name.toList = true)
    (hlike : looksLikeRegister name.toList = true) : name = "GR9" := by
  obtain ⟨d, hd⟩ : ∃ d, name.toList = ['G', 'R', d] := by
    unfold looksLikeRegister at hlike
    split at hlike
    · exact ⟨_, ‹_›⟩
    · cases hlike
  rw [hd] at hname hlike
  have hcode := Text.code_of_isDigit hlike
  have hfree : ¬ (48 ≤ d.toNat ∧ d.toNat ≤ 56) :=
    fun h => (isLabel_iff.mp hname).free d h.1 h.2 rfl
  obtain rfl : d = '9' := by
    apply Char.toNat_inj.mp
    show d.toNat = 57
    omega
  rw [← String.toList_inj, hd]
  rfl

/-- What is taken for a register is refused. -/
theorem AddressedBy.refuses {line : Nat} {text : List Char} {s : Layout} {b : Block}
    (h : AddressedBy options name m.form operands r x)
    (htaken : TakenForRegister name m.form operands) (hname : isLabel name.toList = true)
    (htext : Statement.ofLine text = .ok (some ⟨none, m.name, operands⟩))
    (hopened : s.opened = some b) :
    Pass.Refuses (Pass.sourceLine options line text) s (.registerExpected "GR9") := by
  obtain ⟨hform, htwo, hlike⟩ := htaken
  obtain rfl := eq_of_looksLikeRegister hname hlike
  have hinstruction : Pass.Refuses (Pass.instruction options m operands) s
      (.registerExpected "GR9") := by
    obtain ⟨opcode, hopcode⟩ :=
      Option.isSome_iff_exists.mp (Mnemonic.registerOpcode_isSome hform)
    rw [hform] at h
    cases h with
    | registerOrAddress index hr hx =>
      cases index with
      | some index => simp at htwo
      | none =>
        have hsecond : Pass.register options "GR9" = .error (.registerExpected "GR9") := rfl
        simp [Pass.instruction, hform, looksLikeRegister, Pass.registerForm, hopcode, hr, hsecond]
  obtain ⟨hstart, hend⟩ := m.name_ne
  rw [Pass.sourceLine, htext]
  show Pass.Refuses (Pass.statement options line ⟨none, m.name, operands⟩) s _
  unfold Pass.statement
  simp only
  rw [Pass.refuses_get_bind]
  simp [hopened, Pass.operation, m.operation_of_name, hinstruction]

theorem AddressedBy.mem_diagnostics {line : Nat} {text : List Char} {s : Layout} {b : Block}
    (h : AddressedBy options name m.form operands r x)
    (htaken : TakenForRegister name m.form operands) (hname : isLabel name.toList = true)
    (htext : Statement.ofLine text = .ok (some ⟨none, m.name, operands⟩))
    (hopened : s.opened = some b) :
    ⟨line, "expected a register, found GR9"⟩ ∈
      (s.addLine options line text).diagnostics.toList := by
  rw [Layout.diagnostics_of_refuses (h.refuses htaken hname htext hopened), Array.toList_push]
  exact List.mem_append_right _ (List.mem_singleton_self _)

end reading

/-- The block has the name, or a line in it has it for a label. -/
def ListingBlock.Owns (b : ListingBlock) (name : String) : Prop :=
  b.name = name ∨ ∃ l ∈ b.body, l.label = some name

theorem ListingBlock.Continues.owns {b c : ListingBlock} {name : String} (h : b.Continues c)
    (hb : b.Owns name) : c.Owns name :=
  hb.imp (fun hname => h.name.trans hname) fun ⟨l, hl, hlabel⟩ => ⟨l, h.body hl, hlabel⟩

section listed

variable {options : AssemblyOptions} {last : Option ListingBlock} {location line : Nat}
  {texts rest : List (List Char)} {blocks : List ListingBlock}

/-- What is listed of lines behind others. -/
theorem exists_listed_behind
    (h : listFrom options last location line (texts ++ rest) = some blocks) :
    ∃ last' location' behind,
      listFrom options last' location' (line + texts.length) rest = some behind ∧
        behind ⊆ blocks := by
  induction texts generalizing last location line blocks with
  | nil => exact ⟨last, location, blocks, h, fun _ => id⟩
  | cons text texts ih =>
    rw [List.length_cons, Nat.add_comm texts.length, ← Nat.add_assoc]
    rw [List.cons_append, listFrom_eq_some_iff] at h
    cases h with
    | blank _ hrest | start _ hrest | body _ hrest => exact ih hrest.listFrom_eq
    | finish _ hrest =>
      obtain ⟨last', location', others, hothers, hsub⟩ := ih hrest.listFrom_eq
      exact ⟨last', location', others, hothers, fun b hb => List.mem_cons_of_mem _ (hsub hb)⟩

/-- As long as no END comes, the block stays open and gets the names of its lines. -/
theorem exists_open_behind
    (h : listFrom options last location line (texts ++ rest) = some blocks)
    (hend : ∀ text ∈ texts, ¬ HasOpcode "END" text) :
    ∃ last' location',
      listFrom options last' location' (line + texts.length) rest = some blocks ∧
        (∀ b ∈ last, ∃ c ∈ last', b.Continues c) ∧
        ∀ text ∈ texts, ∀ name, Labelled name text → ∃ c ∈ last', c.Owns name := by
  induction texts generalizing last location line with
  | nil => exact ⟨last, location, h, fun b hb => ⟨b, hb, rfl, fun _ => id⟩, nofun⟩
  | cons text texts ih =>
    obtain ⟨htext, htexts⟩ := List.forall_mem_cons.mp hend
    rw [List.length_cons, Nat.add_comm texts.length, ← Nat.add_assoc]
    rw [List.cons_append, listFrom_eq_some_iff] at h
    have hstep {next : Option ListingBlock} {location' : Nat}
        (hnext : Lists options next location' (line + 1) (texts ++ rest) blocks)
        (hcontinues : ∀ b ∈ last, ∃ c ∈ next, b.Continues c)
        (howns : ∀ name, Labelled name text → ∃ c ∈ next, c.Owns name) :
        ∃ last' location',
          listFrom options last' location' (line + 1 + texts.length) rest = some blocks ∧
            (∀ b ∈ last, ∃ c ∈ last', b.Continues c) ∧
            ∀ text' ∈ text :: texts, ∀ name, Labelled name text' → ∃ c ∈ last', c.Owns name := by
      obtain ⟨last', location'', hrest, hlater, hlabels⟩ := ih hnext.listFrom_eq htexts
      refine ⟨last', location'', hrest, fun b hb => ?_, List.forall_mem_cons.mpr ⟨?_, hlabels⟩⟩
      · obtain ⟨c, hc, hbc⟩ := hcontinues b hb
        obtain ⟨d, hd, hcd⟩ := hlater c hc
        exact ⟨d, hd, hbc.trans hcd⟩
      · intro name hname
        obtain ⟨c, hc, hown⟩ := howns name hname
        obtain ⟨d, hd, hcd⟩ := hlater c hc
        exact ⟨d, hd, hcd.owns hown⟩
    cases h with
    | blank hrow hrest =>
      refine hstep hrest (fun b hb => ⟨b, hb, rfl, fun _ => id⟩) fun name hname => ?_
      obtain ⟨r, hr, -⟩ := hname.exists_row hrow
      cases hr
    | start hrow hrest =>
      refine hstep hrest nofun fun name hname => ?_
      obtain ⟨r, hr, hlabel⟩ := hname.exists_row hrow
      cases hr
      exact ⟨_, rfl, Or.inl (Option.some.inj hlabel)⟩
    | @body b _ _ _ _ _ _ _ hrow hrest =>
      refine hstep hrest ?_ fun name hname => ?_
      · rintro _ ⟨⟩
        exact ⟨_, rfl, b.continues_addLine _⟩
      · obtain ⟨r, hr, hlabel⟩ := hname.exists_row hrow
        cases hr
        exact ⟨_, rfl, Or.inr ⟨_, List.mem_append_right _ List.mem_cons_self, hlabel⟩⟩
    | finish hrow => exact absurd rfl (Row.ne_finish hrow htext)

/-- A line in a block that has the name is listed in that block. -/
theorem exists_listed_with_owner {before above below after : List (List Char)} {text : List Char}
    {label : Option String} {content : Content} {name : String}
    (h : listFrom options none 0 0 (before ++ (above ++ text :: (below ++ after))) = some blocks)
    (hplace : InBlock name above below)
    (hrow : Row.ofLine? options text = some (some (.body label content))) :
    ∃ b ∈ blocks, ∃ a, ⟨before.length + above.length, a, label, content⟩ ∈ b.body ∧
      b.Owns name := by
  obtain ⟨habove, hbelow⟩ := List.forall_mem_append.mp hplace.unclosed
  obtain ⟨last, location, behind, hbehind, hsub⟩ := exists_listed_behind h
  obtain ⟨last', location', hlisted, -, hfirst⟩ := exists_open_behind hbehind habove
  cases listFrom_eq_some_iff.mp hlisted with
  | blank hrow' _ | start hrow' _ | finish hrow' _ => cases hrow'.symm.trans hrow
  | @body c _ _ _ _ _ _ _ hrow' hrest =>
    cases hrow'.symm.trans hrow
    obtain ⟨last'', location'', hafter, hlater, hsecond⟩ :=
      exists_open_behind hrest.listFrom_eq hbelow
    obtain ⟨d, rfl, hcd⟩ := hlater _ rfl
    obtain ⟨b, hb, hdb⟩ := (lists_of_listFrom hafter).exists_continued d rfl
    refine ⟨b, hsub hb, location', ?_, ?_⟩
    · have hl := hdb.body (hcd.body (List.mem_append_right c.body List.mem_cons_self))
      rwa [Nat.zero_add] at hl
    · obtain ⟨line, hmem, hlabel⟩ := hplace.named
      rcases List.mem_append.mp hmem with hmem | hmem
      · obtain ⟨_, ⟨⟩, howns⟩ := hfirst line hmem name hlabel
        exact ((c.continues_addLine _).trans (hcd.trans hdb)).owns howns
      · obtain ⟨_, ⟨⟩, howns⟩ := hsecond line hmem name hlabel
        exact hdb.owns howns

end listed

/-- The address that the block gives the name: where the line with that label stands, or where the
block is entered if the name is that of the block and no label in it. -/
def ListingBlock.GivesAddress (options : AssemblyOptions) (blocks : List ListingBlock)
    (b : ListingBlock) (name : String) (a : Nat) : Prop :=
  (∃ l ∈ b.body, l.label = some name ∧ l.location = a) ∨
    (b.name = name ∧ (∀ l ∈ b.body, l.label ≠ some name) ∧ b.EntersAt options blocks a)

theorem ListingBlock.Owns.givesAddress {options : AssemblyOptions} {blocks : List ListingBlock}
    {b : ListingBlock} {name : String} {w : Word} {a : Nat} (h : b.Owns name) (hb : b ∈ blocks)
    (henters : b.EntersAt options blocks a) (hw : Denotes options blocks b (.label name) w) :
    b.GivesAddress options blocks name w.toNat := by
  by_cases hown : ∃ l ∈ b.body, l.label = some name
  · obtain ⟨l, hl, hlabel⟩ := hown
    exact Or.inl ⟨l, hl, hlabel, (hw _).mp (.own hl hlabel)⟩
  · obtain rfl := h.resolve_right hown
    have hforeign : ∀ l ∈ b.body, l.label ≠ some b.name :=
      fun l hl hlabel => hown ⟨l, hl, hlabel⟩
    obtain rfl := (hw a).mp (.block hforeign hb henters)
    exact Or.inr ⟨rfl, hforeign, henters⟩

theorem Layout.isLabel_of_addLines {options : AssemblyOptions} {s : Layout} {n : Nat}
    {texts : List (List Char)} (h : (s.addLines options n texts).diagnostics = #[]) {name : String}
    {text : List Char} (htext : text ∈ texts) (hname : Labelled name text) :
    isLabel name.toList = true := by
  induction texts generalizing s n with
  | nil => cases htext
  | cons first rest ih =>
    rcases List.mem_cons.mp htext with rfl | hrest
    · obtain ⟨row, hrow, -⟩ := understood_of_addLine (diagnostics_of_addLines h)
      obtain ⟨st, hst, hlabel⟩ := hname
      exact hrow.label st hst name hlabel
    · exact ih h hrest

end Assembly

section assemble

open Assembly

variable {source source' : String} {options : AssemblyOptions} {text : List Char}
  {before above below after : List (List Char)} {name : String} {m : Mnemonic}
  {operands : List String} {r x : RegisterField}

/-- The words of an instruction that names a label of its block, or the block, as its address. -/
theorem exists_addressed (h : (assemble source options).diagnostics = [])
    (hlines : Text.lines source.toList = before ++ (above ++ text :: (below ++ after)))
    (hplace : InBlock name above below)
    (hrow : Row.ofLine? options text =
      some (some (.body none (.code [⟨m, r, x, some (.label name)⟩])))) :
    ∃ p blocks b a w, assemble source options = { program := some p } ∧
      listing source options = some blocks ∧ b ∈ blocks ∧
      ⟨before.length + above.length, a, none, .code [⟨m, r, x, some (.label name)⟩]⟩ ∈ b.body ∧
      (p.code.drop a).take 2 = [Instruction.encode m.opcode r x, w] ∧
      b.GivesAddress options blocks name w.toNat := by
  obtain ⟨-, hassemble⟩ := assemble_eq_program h
  obtain ⟨blocks, hlisted, hrealizes, hfrom⟩ := listing_of_assemble h
  obtain ⟨b, hb, a, hl, howns⟩ :
      ∃ b ∈ blocks, ∃ a, ⟨before.length + above.length, a, none,
        .code [⟨m, r, x, some (.label name)⟩]⟩ ∈ b.body ∧ b.Owns name := by
    rw [listing, hlines] at hlisted
    exact exists_listed_with_owner hlisted hplace hrow
  have hwords := (hrealizes.image_of_assemble h hfrom).line_words hb hl
  obtain ⟨c, hc, hcloses⟩ := hrealizes.exists_closed hb
  obtain ⟨v, rest, hv, hrest, htake⟩ := List.forall₂_cons_left_iff.mp hwords
  obtain ⟨w, _, hw, hnil, rfl⟩ := List.forall₂_cons_left_iff.mp hrest
  obtain rfl := List.forall₂_nil_left_iff.mp hnil
  obtain rfl : v = Instruction.encode m.opcode r x := hv
  exact ⟨_, blocks, b, a, w, hassemble, hlisted, hb, hl, htake,
    howns.givesAddress hb hcloses.enters hw⟩

/-- Wherever a block defines a label, an instruction that names it as its address may be added at
any place in the block: the source is still accepted, if there is room, and the second word of the
instruction is the address of the label. There is one exception, a label that looks like a register
where a register may stand for the address: the line is reported. -/
theorem label_addressable_unless_taken_for_register (h : (assemble source options).diagnostics = [])
    (hlines : Text.lines source.toList = before ++ (above ++ (below ++ after)))
    (hlines' : Text.lines source'.toList = before ++ (above ++ text :: (below ++ after)))
    (hplace : InBlock name above below)
    (htext : Statement.ofLine text = .ok (some ⟨none, m.name, operands⟩))
    (hoperands : AddressedBy options name m.form operands r x) :
    (TakenForRegister name m.form operands →
      name = "GR9" ∧ ⟨before.length + above.length, "expected a register, found GR9"⟩ ∈
        (assemble source' options).diagnostics) ∧
    (¬ TakenForRegister name m.form operands →
      (∀ d ∈ (assemble source' options).diagnostics,
        d.message ≠ SourceError.memoryFull.message) →
      ∃ p blocks b a w, assemble source' options = { program := some p } ∧
        listing source' options = some blocks ∧ b ∈ blocks ∧
        ⟨before.length + above.length, a, none, .code [⟨m, r, x, some (.label name)⟩]⟩ ∈ b.body ∧
        (p.code.drop a).take 2 = [Instruction.encode m.opcode r x, w] ∧
        b.GivesAddress options blocks name w.toNat) := by
  obtain ⟨hnone, -⟩ := assemble_eq_program h
  rw [layoutOf, hlines] at hnone
  obtain ⟨heq, -, -⟩ := Layout.ofLines_eq_addLines hnone
  rw [heq, Layout.addLines_append, Nat.zero_add] at hnone
  have hlabel : isLabel name.toList = true := by
    obtain ⟨line, hmem, hline⟩ := hplace.named
    rw [← List.append_assoc] at hnone
    exact Layout.isLabel_of_addLines hnone (List.mem_append_left _ hmem) hline
  refine ⟨fun htaken => ?_, fun hfree hfits => ?_⟩
  · obtain ⟨⟨b, hb⟩, -⟩ := Layout.openHas_within hnone hplace
    refine ⟨eq_of_looksLikeRegister hlabel htaken.2.2, mem_diagnostics_assemble ?_⟩
    rw [layoutOf, hlines']
    refine Layout.mem_diagnostics_ofLines ?_
    rw [Layout.addLines_append, Layout.addLines_append, Nat.zero_add, Layout.addLines]
    exact Layout.mem_diagnostics_addLines (hoperands.mem_diagnostics htaken hlabel htext hb)
  · have hunderstood := understood_of_reads htext (hoperands.reads hlabel hfree)
    have honly : (Content.code [⟨m, r, x, some (.label name)⟩]).LabelOnly name :=
      ⟨by simp [Content.cells, SymbolicInstruction.cells, Cell.literal?],
        by simp [Content.cells, SymbolicInstruction.cells]⟩
    have hnone' := diagnostics_assemble_insert h hlines hlines' hplace hunderstood honly hfits
    exact exists_addressed hnone' hlines' hplace hunderstood.row

/-- With an index behind it, a label that looks like a register is an address. -/
theorem indexed_label_addressed : ∃ p blocks b a w,
    assemble "MAIN START\n LD GR2,GR9,GR1\n RET\nGR9 DC 7\n END\n" {} = { program := some p } ∧
      listing "MAIN START\n LD GR2,GR9,GR1\n RET\nGR9 DC 7\n END\n" {} = some blocks ∧ b ∈ blocks ∧
      ⟨1, a, none, .code [⟨.ld, 2, 1, some (.label "GR9")⟩]⟩ ∈ b.body ∧
      (p.code.drop a).take 2 = [Instruction.encode Mnemonic.ld.opcode 2 1, w] ∧
      b.GivesAddress {} blocks "GR9" w.toNat := by
  have hoperands : AddressedBy {} "GR9" Mnemonic.ld.form ["GR2", "GR9", "GR1"] 2 1 :=
    .registerOrAddress (some "GR1") rfl rfl
  have hplace : InBlock "GR9" [] [" RET".toList, "GR9 DC 7".toList] :=
    ⟨by decide +kernel, by decide +kernel, by decide +kernel⟩
  exact (@label_addressable_unless_taken_for_register "MAIN START\n RET\nGR9 DC 7\n END\n"
    "MAIN START\n LD GR2,GR9,GR1\n RET\nGR9 DC 7\n END\n" {} " LD GR2,GR9,GR1".toList
    ["MAIN START".toList] [] [" RET".toList, "GR9 DC 7".toList] [" END".toList] "GR9" .ld
    ["GR2", "GR9", "GR1"] 2 1 (by decide +kernel) (by decide +kernel) (by decide +kernel) hplace
    (by decide +kernel) hoperands).2 (fun htaken => absurd htaken.2.1 (by decide))
    (by decide +kernel)

/-- The label `GR9` may be defined, but not every instruction may name it. -/
theorem label_taken_for_register :
    (assemble "MAIN START\nGR9 LAD GR1,1\n RET\n END\n" {}).diagnostics = [] ∧
      Labelled "GR9" "GR9 LAD GR1,1".toList ∧
      AddressedBy {} "GR9" Mnemonic.ld.form ["GR2", "GR9"] 2 0 ∧
      Statement.ofLine " LD GR2,GR9".toList = .ok (some ⟨none, "LD", ["GR2", "GR9"]⟩) ∧
      (assemble "MAIN START\nGR9 LAD GR1,1\n LD GR2,GR9\n RET\n END\n" {}).diagnostics =
        [⟨2, "expected a register, found GR9"⟩] :=
  ⟨by decide +kernel, by decide +kernel, .registerOrAddress none rfl rfl, by decide +kernel,
    by decide +kernel⟩

end assemble

end Comet
