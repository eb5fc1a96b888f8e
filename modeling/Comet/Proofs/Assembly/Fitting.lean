import Comet.Proofs.Assembly.Refused

namespace Comet

open Assembly

section operands

variable (options : AssemblyOptions)

/-- The text is a register that may be written. -/
def IsRegister (text : String) : Prop := ∃ r, Pass.register options text = .ok r

/-- The text is a register that may be used as an index. -/
def IsIndex (text : String) : Prop := ∃ x, Pass.register options text = .ok x ∧ x ≠ 0

def IsConstant (text : String) : Prop := ∃ cells, constant text.toList = .ok cells

/-- The text is a literal or a constant of one word. -/
def IsAddress (text : String) : Prop := ∃ cell, addressOperand text.toList = .ok cell

/-- The operands are of the form. The second of two operands that is meant as a register has to be
one, even where an address might stand instead. -/
inductive OperandForm.Fits : OperandForm → List String → Prop
  | empty : Fits .empty []
  | register {r : String} (hr : IsRegister options r) : Fits .register [r]
  | registerAddress {r adr : String} (index : Option String) (hr : IsRegister options r)
      (hadr : IsAddress adr) (hindex : ∀ x ∈ index, IsIndex options x) :
      Fits .registerAddress (r :: adr :: index.toList)
  | registers {r₁ r₂ : String} (hlike : looksLikeRegister r₂.toList = true)
      (h₁ : IsRegister options r₁) (h₂ : IsRegister options r₂) :
      Fits .registerAddressOrRegister [r₁, r₂]
  | registerOrAddress {r adr : String} (index : Option String)
      (hlike : index = none → looksLikeRegister adr.toList = false) (hr : IsRegister options r)
      (hadr : IsAddress adr) (hindex : ∀ x ∈ index, IsIndex options x) :
      Fits .registerAddressOrRegister (r :: adr :: index.toList)
  | address {adr : String} (index : Option String) (hadr : IsAddress adr)
      (hindex : ∀ x ∈ index, IsIndex options x) : Fits .address (adr :: index.toList)

/-- The operands are what the operation takes. -/
inductive Assembly.Operation.Fits : Operation → List String → Prop
  | space {text : String} {size : Nat} (hsize : Text.unsigned? 10 0x10000 text.toList = some size) :
      Fits .space [text]
  | constants {operands : List String} (hsome : operands ≠ [])
      (hconstants : ∀ text ∈ operands, IsConstant text) : Fits .constants operands
  | transfer {code : Word} {buffer length : String} (hbuffer : IsAddress buffer)
      (hlength : IsAddress length) : Fits (.transfer code) [buffer, length]
  | save : Fits .save []
  | restore : Fits .restore []
  | machine {m : Mnemonic} {operands : List String} (hform : m.form.Fits options operands) :
      Fits (.machine m) operands

end operands

section reading

variable {options : AssemblyOptions} {m : Mnemonic} {text name : String} {operands : List String}

theorem isRegister_iff :
    IsRegister options text ↔ ∃ r, SymbolicInstruction.register? options text = some r := by
  simp only [IsRegister, register?_eq_some_iff]

theorem forall_isIndex_iff {index : Option String} : (∀ text ∈ index, IsIndex options text) ↔
    ∃ x, SymbolicInstruction.index? options index = some x := by
  cases index with
  | none => exact ⟨fun _ => ⟨0, rfl⟩, fun _ => nofun⟩
  | some text =>
    simp [IsIndex, index?_eq_some_iff, indexRegister_eq_ok_iff]

theorem fits_iff_exists_reads : m.form.Fits options operands ↔
    ∃ i, SymbolicInstruction.Reads options m operands i := by
  constructor
  · intro h
    generalize hform : m.form = form at h
    cases h with
    | empty => exact ⟨_, .empty hform⟩
    | register hr =>
      obtain ⟨r, hr⟩ := isRegister_iff.mp hr
      exact ⟨_, .register hform hr⟩
    | registers hlike h₁ h₂ =>
      obtain ⟨r, hr⟩ := isRegister_iff.mp h₁
      obtain ⟨x, hx⟩ := isRegister_iff.mp h₂
      exact ⟨_, .registers hform hlike hr hx⟩
    | registerAddress index hr hadr hindex =>
      obtain ⟨r, hr⟩ := isRegister_iff.mp hr
      obtain ⟨cell, hadr⟩ := hadr
      obtain ⟨x, hx⟩ := forall_isIndex_iff.mp hindex
      exact ⟨_, .registerAddress index hform hr hadr hx⟩
    | registerOrAddress index hlike hr hadr hindex =>
      obtain ⟨r, hr⟩ := isRegister_iff.mp hr
      obtain ⟨cell, hadr⟩ := hadr
      obtain ⟨x, hx⟩ := forall_isIndex_iff.mp hindex
      exact ⟨_, .registerOrAddress index hform hlike hr hadr hx⟩
    | address index hadr hindex =>
      obtain ⟨cell, hadr⟩ := hadr
      obtain ⟨x, hx⟩ := forall_isIndex_iff.mp hindex
      exact ⟨_, .address index hform hadr hx⟩
  · rintro ⟨i, h⟩
    cases h with
    | empty hform => exact hform ▸ .empty
    | register hform hr => exact hform ▸ .register (isRegister_iff.mpr ⟨_, hr⟩)
    | registers hform hlike hr hx =>
      exact hform ▸ .registers hlike (isRegister_iff.mpr ⟨_, hr⟩) (isRegister_iff.mpr ⟨_, hx⟩)
    | registerAddress index hform hr hadr hx =>
      exact hform ▸ .registerAddress index (isRegister_iff.mpr ⟨_, hr⟩) ⟨_, hadr⟩
        (forall_isIndex_iff.mpr ⟨_, hx⟩)
    | registerOrAddress index hform hlike hr hadr hx =>
      exact hform ▸ .registerOrAddress index hlike (isRegister_iff.mpr ⟨_, hr⟩) ⟨_, hadr⟩
        (forall_isIndex_iff.mpr ⟨_, hx⟩)
    | address index hform hadr hx =>
      exact hform ▸ .address index ⟨_, hadr⟩ (forall_isIndex_iff.mpr ⟨_, hx⟩)

theorem exists_mapM_iff {ε α β : Type} {f : α → Except ε β} {xs : List α} :
    (∃ ys, xs.mapM f = .ok ys) ↔ ∀ x ∈ xs, ∃ y, f x = .ok y := by
  induction xs with
  | nil => exact ⟨fun _ => nofun, fun _ => ⟨[], rfl⟩⟩
  | cons x rest ih =>
    rw [List.forall_mem_cons, ← ih]
    simp only [List.mapM_cons, bind_eq_ok]
    constructor
    · rintro ⟨_, y, hy, ys, hys, -⟩
      exact ⟨⟨y, hy⟩, ys, hys⟩
    · rintro ⟨⟨y, hy⟩, ys, hys⟩
      exact ⟨_, y, hy, ys, hys, rfl⟩

theorem exists_constants_iff :
    (∃ cells, Pass.constants operands = .ok cells) ↔ ∀ text ∈ operands, IsConstant text := by
  unfold IsConstant
  rw [← exists_mapM_iff]
  simp only [Pass.constants, bind_eq_ok]
  constructor
  · rintro ⟨_, parts, hparts, -⟩
    exact ⟨parts, hparts⟩
  · rintro ⟨parts, hparts⟩
    exact ⟨_, parts, hparts, rfl⟩

theorem Assembly.Operation.fits_iff_exists_reads {operation : Operation} :
    operation.Fits options operands ↔
      ∃ content, Content.Reads options operation operands content := by
  constructor
  · intro h
    cases h with
    | space hsize => exact ⟨_, .space hsize⟩
    | constants hsome hconstants =>
      obtain ⟨cells, hcells⟩ := exists_constants_iff.mpr hconstants
      exact ⟨_, .constants hsome hcells⟩
    | transfer hbuffer hlength =>
      obtain ⟨b, hb⟩ := hbuffer
      obtain ⟨l, hl⟩ := hlength
      exact ⟨_, .transfer hb hl⟩
    | save => exact ⟨_, .save⟩
    | restore => exact ⟨_, .restore⟩
    | machine hform =>
      obtain ⟨i, hi⟩ := Comet.fits_iff_exists_reads.mp hform
      exact ⟨_, .machine hi⟩
  · rintro ⟨content, h⟩
    cases h with
    | space hsize => exact .space hsize
    | constants hsome hcells => exact .constants hsome (exists_constants_iff.mp ⟨_, hcells⟩)
    | transfer hbuffer hlength => exact .transfer ⟨_, hbuffer⟩ ⟨_, hlength⟩
    | save => exact .save
    | restore => exact .restore
    | machine hi => exact .machine (Comet.fits_iff_exists_reads.mpr ⟨_, hi⟩)

theorem Assembly.Content.exists_read?_iff :
    (∃ content, Content.read? options name operands = some content) ↔
      ∃ operation, Operation.ofName? name = some operation ∧
        operation.Fits options operands := by
  simp only [Content.read?_eq_some_iff, Operation.fits_iff_exists_reads]
  constructor
  · rintro ⟨content, operation, hname, hreads⟩
    exact ⟨operation, hname, content, hreads⟩
  · rintro ⟨operation, hname, content, hreads⟩
    exact ⟨content, operation, hname, hreads⟩

end reading

namespace Statement

/-- The label is right for the line: a START has to have one, and an END none. -/
def LabelFits (s : Statement) : Prop :=
  match s.opcode with
  | "START" => ∃ l, s.label = some l ∧ isLabel l.toList = true
  | "END" => s.label = none
  | _ => ∀ l ∈ s.label, isLabel l.toList = true

/-- The operation code is one of a pseudo-instruction, a macro or an instruction. -/
def OpcodeKnown (s : Statement) : Prop :=
  s.opcode = "START" ∨ s.opcode = "END" ∨ ∃ operation, Operation.ofName? s.opcode = some operation

def OperandsFit (options : AssemblyOptions) (s : Statement) : Prop :=
  match s.opcode with
  | "START" => s.operands = [] ∨ ∃ entry, s.operands = [entry] ∧ isLabel entry.toList = true
  | "END" => s.operands = []
  | name => ∃ operation, Operation.ofName? name = some operation ∧
      operation.Fits options s.operands

end Statement

/-- The line is wrong by itself. -/
inductive Malformed (options : AssemblyOptions) (text : List Char) : Prop
  | unreadable {e : SourceError} (he : Statement.ofLine text = .error e)
  | label {s : Statement} (hs : Statement.ofLine text = .ok (some s)) (hlabel : ¬ s.LabelFits)
  | opcode {s : Statement} (hs : Statement.ofLine text = .ok (some s)) (hopcode : ¬ s.OpcodeKnown)
  | operands {s : Statement} (hs : Statement.ofLine text = .ok (some s))
      (hoperands : ¬ s.OperandsFit options)

namespace Assembly

variable {options : AssemblyOptions} {s : Statement} {text : List Char}

theorem Row.exists_reads_iff :
    ((∃ row, Row.Reads options s row) ∧ ∀ l ∈ s.label, isLabel l.toList = true) ↔
      s.LabelFits ∧ s.OpcodeKnown ∧ s.OperandsFit options := by
  constructor
  · rintro ⟨⟨row, hreads⟩, hlabel⟩
    cases hreads with
    | @start name entryLabel hentry =>
      refine ⟨⟨name, rfl, hlabel name rfl⟩, Or.inl rfl, ?_⟩
      cases entryLabel with
      | none => exact Or.inl rfl
      | some entry => exact Or.inr ⟨entry, rfl, hentry entry rfl⟩
    | body hstart hend hcontent =>
      obtain ⟨operation, hname, hfits⟩ := Content.exists_read?_iff.mp ⟨_, hcontent⟩
      refine ⟨?_, Or.inr (Or.inr ⟨operation, hname⟩), ?_⟩
      · simpa only [Statement.LabelFits] using hlabel
      · simpa only [Statement.OperandsFit] using ⟨operation, hname, hfits⟩
    | finish => exact ⟨rfl, Or.inr (Or.inl rfl), rfl⟩
  · obtain ⟨label, opcode, operands⟩ := s
    by_cases hstart : opcode = "START"
    · subst hstart
      rintro ⟨⟨name, rfl, hname⟩, -, rfl | ⟨entry, rfl, hentry⟩⟩
      · exact ⟨⟨_, .start none nofun⟩, by rintro _ ⟨⟩; exact hname⟩
      · exact ⟨⟨_, .start (some entry) (by rintro _ ⟨⟩; exact hentry)⟩, by rintro _ ⟨⟩; exact hname⟩
    by_cases hend : opcode = "END"
    · subst hend
      rintro ⟨hnone, -, hempty⟩
      obtain rfl : label = none := hnone
      obtain rfl : operands = [] := hempty
      exact ⟨⟨_, .finish⟩, fun l hl => absurd hl (Option.not_mem_none l)⟩
    · rintro ⟨hlabel, -, hoperands⟩
      simp only [Statement.LabelFits] at hlabel
      simp only [Statement.OperandsFit] at hoperands
      obtain ⟨content, hcontent⟩ := Content.exists_read?_iff.mpr hoperands
      exact ⟨⟨_, .body hstart hend hcontent⟩, hlabel⟩

/-- A line is malformed just when it has no reading. -/
theorem not_malformed_iff : ¬ Malformed options text ↔ ∃ row, Understood options text row := by
  constructor
  · intro h
    cases hread : Statement.ofLine text with
    | error e => exact absurd (.unreadable hread) h
    | ok found =>
      cases found with
      | none =>
        refine ⟨none, Row.ofLine?_eq_some_iff.mpr (Or.inl ⟨hread, rfl⟩), fun s hs => ?_⟩
        rw [hread] at hs
        cases hs
      | some s =>
        have hfits : s.LabelFits ∧ s.OpcodeKnown ∧ s.OperandsFit options :=
          ⟨Classical.byContradiction fun hlabel => h (.label hread hlabel),
            Classical.byContradiction fun hopcode => h (.opcode hread hopcode),
            Classical.byContradiction fun hoperands => h (.operands hread hoperands)⟩
        obtain ⟨⟨row, hreads⟩, hlabel⟩ := Row.exists_reads_iff.mpr hfits
        have hrow := Row.ofLine?_eq_some_iff.mpr (Or.inr ⟨s, row, hread, rfl, hreads⟩)
        refine ⟨some row, hrow, fun s' hs' => ?_⟩
        obtain rfl : s = s' := Option.some.inj (Except.ok.inj (hread.symm.trans hs'))
        exact hlabel
  · rintro ⟨row, hrow⟩ h
    have hfits {s : Statement} (hs : Statement.ofLine text = .ok (some s)) :
        s.LabelFits ∧ s.OpcodeKnown ∧ s.OperandsFit options := by
      obtain ⟨r, -, hreads⟩ := Row.exists_row_of_statement hs hrow.row
      exact Row.exists_reads_iff.mp ⟨⟨r, hreads⟩, hrow.label s hs⟩
    cases h with
    | unreadable he =>
      rcases Row.ofLine?_eq_some_iff.mp hrow.row with ⟨hblank, -⟩ | ⟨s, r, hs, -, -⟩
      · rw [he] at hblank
        cases hblank
      · rw [he] at hs
        cases hs
    | label hs hlabel => exact hlabel (hfits hs).1
    | opcode hs hopcode => exact hopcode (hfits hs).2.1
    | operands hs hoperands => exact hoperands (hfits hs).2.2

end Assembly

end Comet
