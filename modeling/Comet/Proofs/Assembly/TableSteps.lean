import Comet.Proofs.Assembly.Tables

namespace Comet.Assembly

section run

variable {t : Tables} {line block size : Nat} {isInstruction : Bool}

theorem TablePass.run_here (t : Tables) : TablePass.here.run t =
    if t.location < memorySize then .ok (.ofNat t.location) t
    else .error (.refused .memoryFull) t := by
  show (if t.location < memorySize then pure (.ofNat t.location)
    else refuse .memoryFull : TablePass Word).run t = _
  split <;> rfl

theorem Pass.run_here (s : Layout) : Pass.here.run s =
    if s.location < memorySize then .ok (.ofNat s.location) s else .error .memoryFull s := by
  show (if s.location < memorySize then pure (.ofNat s.location)
    else throw .memoryFull : Pass Word).run s = _
  split <;> rfl

theorem TablePass.run_emit (t : Tables) (cells : List IndexedCell) :
    (TablePass.emit line block isInstruction cells).run t =
      if t.location < memorySize ∧ t.location + cells.length ≤ memorySize then
        .ok () { t with
          location := t.location + cells.length
          groups := t.groups ++ [⟨.ofNat t.location, line, block, cells, isInstruction⟩] }
      else .error (.refused .memoryFull) t := by
  rw [emit, EStateM.run_bind, run_here]
  by_cases hfree : t.location < memorySize
  · by_cases hfull : memorySize < t.location + cells.length
    · simp [refuse, hfree, hfull, Nat.not_le.mpr hfull]
    · simp [hfree, hfull, Nat.not_lt.mp hfull]
  · simp [hfree]

theorem Pass.run_reserve (s : Layout) : (Pass.reserve size).run s =
    if s.location < memorySize ∧ s.location + size ≤ memorySize then
      .ok (.ofNat s.location) { s with location := s.location + size }
    else .error .memoryFull s := by
  rw [reserve, EStateM.run_bind, run_here]
  by_cases hfree : s.location < memorySize
  · by_cases hfull : memorySize < s.location + size
    · simp [hfree, hfull, Nat.not_le.mpr hfull]
    · have hfits := Nat.not_lt.mp hfull
      simp only [hfree, hfits, and_self, if_true, EStateM.run_bind, EStateM.run_get, if_neg hfull]
      rfl
  · simp [hfree]

theorem Pass.run_emit (s : Layout) (cells : List Cell) :
    (Pass.emit line isInstruction cells).run s =
      if s.location < memorySize ∧ s.location + cells.length ≤ memorySize then
        .ok () { s with
          location := s.location + cells.length
          opened := s.opened.map (·.addPiece ⟨.ofNat s.location, line, cells, isInstruction⟩) }
      else .error .memoryFull s := by
  rw [emit, EStateM.run_bind, run_reserve]
  by_cases hfits : s.location < memorySize ∧ s.location + cells.length ≤ memorySize
  · rw [if_pos hfits, if_pos hfits]
    rfl
  · rw [if_neg hfits, if_neg hfits]

theorem TablePass.run_blockAt {b : TableBlock} (h : t.blocks[block]? = some b) :
    (TablePass.blockAt block).run t = .ok b t := by
  simp [blockAt, element, h]

theorem TablePass.run_updateBlock {b : TableBlock} (h : t.blocks[block]? = some b)
    (f : TableBlock → TableBlock) : (TablePass.updateBlock block f).run t =
      .ok () { t with blocks := t.blocks.set block (f b) } := by
  rw [updateBlock, EStateM.run_bind, run_blockAt h]
  rfl

theorem TablePass.run_literal {b : TableBlock} (h : t.blocks[block]? = some b)
    (words : List Word) : (TablePass.literal block words).run t =
      match b.literals.idxOf? words with
      | some index => .ok index t
      | none => .ok b.literals.length { t with
          blocks := t.blocks.set block { b with literals := b.literals ++ [words] } } := by
  rw [literal, EStateM.run_bind, run_blockAt h]
  cases hindex : b.literals.idxOf? words with
  | some index => simp only [hindex, EStateM.run_pure]
  | none =>
    simp only [hindex, EStateM.run_bind, run_updateBlock h]
    rfl

theorem TablePass.run_entryOf (t : Tables) (block : Nat) (b : TableBlock) :
    (TablePass.entryOf block b).run t =
      match b.entryLabel with
      | none => .ok b.origin t
      | some name => match t.resolve block name with
        | some address => .ok address t
        | none => .error (.refused (.undefinedLabel name)) t := by
  unfold entryOf
  cases b.entryLabel with
  | none => rfl
  | some name =>
    simp only
    rw [EStateM.run_bind]
    simp only [EStateM.run_get]
    cases t.resolve block name <;> rfl

end run

section registers

variable (options : AssemblyOptions)

/-- The third character is asked for only where there is one, and is then a digit. -/
theorem TablePass.register_eq (text : String) :
    TablePass.register options text = TablePass.ofExcept (Pass.register options text) := by
  have hgr8 : text = "GR8" ↔ text.toList = ['G', 'R', '8'] := by
    rw [← String.toList_inj]
    rfl
  unfold register Pass.register
  simp only [hgr8]
  generalize text.toList = cs
  by_cases hshape : ∃ d, cs = ['G', 'R', d]
  · obtain ⟨d, rfl⟩ := hshape
    have helement : element ['G', 'R', d] 2 = Pure.pure d := rfl
    have hlike : looksLikeRegister ['G', 'R', d] = d.isDigit := rfl
    have hdigit : d.isDigit = true ↔ '0' ≤ d ∧ d ≤ '9' := by
      simp [Char.isDigit, Char.le_def]
    by_cases h8 : d = '8'
    · subst h8
      cases options.useGr8 <;> rfl
    · rw [if_neg (by simpa using h8)]
      simp only [hlike, helement, pure_bind, if_neg h8]
      by_cases hlow : '0' ≤ d ∧ d ≤ '7'
      · have hle : '7' ≤ '9' := by decide
        have hdifference : difference d.toNat '0'.toNat = Pure.pure (d.toNat - '0'.toNat) :=
          if_pos (Char.le_def.mp hlow.1)
        rw [if_pos (hdigit.mpr ⟨hlow.1, Char.le_trans hlow.2 hle⟩), if_pos hlow.2, if_pos hlow,
          hdifference]
        rfl
      · rw [if_neg hlow]
        by_cases hd : d.isDigit = true
        · rw [if_pos hd, if_neg fun h7 => hlow ⟨(hdigit.mp hd).1, h7⟩]
          rfl
        · rw [if_neg hd]
          rfl
  · have hlike : looksLikeRegister cs = false := by
      unfold looksLikeRegister
      split
      · exact absurd ⟨_, rfl⟩ hshape
      · rfl
    rw [if_neg fun h8 => hshape ⟨'8', h8⟩, if_neg (Bool.not_eq_true _ ▸ hlike)]
    split
    · exact absurd ⟨_, rfl⟩ hshape
    · rfl

theorem TablePass.indexRegister_eq (index : Option String) :
    TablePass.indexRegister options index =
      TablePass.ofExcept (Pass.indexRegister options index) := by
  cases index with
  | none => rfl
  | some text =>
    simp only [indexRegister, Pass.indexRegister, register_eq]
    cases Pass.register options text with
    | error e => rfl
    | ok x =>
      show (if x = 0 then refuse .indexByGr0 else Pure.pure x : TablePass RegisterField) =
        ofExcept (if x = 0 then .error .indexByGr0 else .ok x)
      split <;> rfl

end registers

namespace TablePass

/-- The tables that a step leaves, whether it is refused or not. -/
def after {α : Type} (x : TablePass α) (t : Tables) : Tables :=
  match x.run t with
  | .ok _ t => t
  | .error _ t => t

/-- Whatever becomes of the step, it takes no group away, and what it adds are groups of the
line. -/
def Adds {α : Type} (x : TablePass α) (line : Nat) : Prop :=
  ∀ t, ∃ gs, (x.after t).groups = t.groups ++ gs ∧ ∀ g ∈ gs, g.line = line

namespace Adds

variable {α β : Type} {x : TablePass α} {f : α → TablePass β} {options : AssemblyOptions}
  {line block : Nat} {operands : List String}

theorem nothing (h : ∀ t, (x.after t).groups = t.groups) : x.Adds line :=
  fun t => ⟨[], by rw [h, List.append_nil], nofun⟩

theorem bind (hx : x.Adds line) (hf : ∀ a, (f a).Adds line) : (x >>= f).Adds line := by
  intro t
  obtain ⟨gs, hgs, hlines⟩ := hx t
  unfold after at hgs ⊢
  rw [EStateM.run_bind]
  cases hrun : x.run t with
  | error e t' =>
    rw [hrun] at hgs
    exact ⟨gs, hgs, hlines⟩
  | ok a t' =>
    rw [hrun] at hgs
    obtain ⟨more, hmore, hlines'⟩ := hf a t'
    refine ⟨gs ++ more, ?_, ?_⟩
    · rw [← List.append_assoc, ← hgs]
      exact hmore
    · intro g hg
      rcases List.mem_append.mp hg with hg | hg
      · exact hlines g hg
      · exact hlines' g hg

theorem pure (a : α) : (Pure.pure a : TablePass α).Adds line := .nothing fun _ => rfl

theorem refuse (e : SourceError) : (TablePass.refuse e : TablePass α).Adds line :=
  .nothing fun _ => rfl

theorem read : (get : TablePass Tables).Adds line := .nothing fun _ => rfl

theorem ofExcept (r : Except SourceError α) : (TablePass.ofExcept r).Adds line := by
  cases r with
  | ok a => exact .pure a
  | error e => exact .refuse e

theorem element (table : List α) (index : Nat) : (TablePass.element table index).Adds line := by
  unfold TablePass.element
  split
  · exact .pure _
  · exact .nothing fun _ => rfl

theorem blockAt : (TablePass.blockAt block).Adds line := read.bind fun _ => .element _ _

theorem updateBlock (change : TableBlock → TableBlock) :
    (TablePass.updateBlock block change).Adds line :=
  blockAt.bind fun _ => .nothing fun _ => rfl

theorem here : TablePass.here.Adds line := by
  refine .nothing fun t => ?_
  rw [after, run_here]
  by_cases hfree : t.location < memorySize
  · rw [if_pos hfree]
  · rw [if_neg hfree]

theorem forM {xs : List α} {f : α → TablePass PUnit} (hf : ∀ a, (f a).Adds line) :
    (xs.forM f).Adds line := by
  induction xs with
  | nil => exact .pure _
  | cons a rest ih => exact (hf a).bind fun _ => ih

theorem emit {isInstruction : Bool} {cells : List IndexedCell} :
    (TablePass.emit line block isInstruction cells).Adds line := by
  intro t
  rw [after, run_emit]
  by_cases hfits : t.location < memorySize ∧ t.location + cells.length ≤ memorySize
  · rw [if_pos hfits]
    refine ⟨_, rfl, fun g hg => ?_⟩
    rw [List.mem_singleton.mp hg]
  · rw [if_neg hfits]
    exact ⟨[], (List.append_nil _).symm, nofun⟩

theorem literal {words : List Word} : (TablePass.literal block words).Adds line := by
  refine blockAt.bind fun b => ?_
  split
  · exact .pure _
  · exact (updateBlock _).bind fun _ => .pure _

theorem cell (c : Cell) : (TablePass.cell block c).Adds line := by
  cases c with
  | value w => exact .pure _
  | label name => exact .pure _
  | literal words => exact literal.bind fun _ => .pure _

theorem cells (cs : List Cell) : (cs.mapM (TablePass.cell block)).Adds line := by
  induction cs with
  | nil => exact .pure _
  | cons c rest ih =>
    rw [List.mapM_cons]
    exact (cell c).bind fun _ => ih.bind fun _ => .pure _

theorem address (text : String) : (TablePass.address block text).Adds line :=
  (ofExcept _).bind fun _ => .cell _

theorem register (text : String) : (TablePass.register options text).Adds line := by
  rw [register_eq]
  exact .ofExcept _

theorem addressForm {m : Mnemonic} {r : RegisterField} {adr : String} {index : Option String} :
    (TablePass.addressForm options block m r adr index).Adds line := by
  have hindex : (TablePass.indexRegister options index).Adds line := by
    rw [indexRegister_eq]
    exact .ofExcept _
  exact hindex.bind fun _ => (address adr).bind fun _ => .pure _

theorem registerAddressForm {m : Mnemonic} {r adr : String} {index : Option String} :
    (TablePass.registerAddressForm options block m r adr index).Adds line :=
  (register r).bind fun _ => addressForm

theorem registerForm {m : Mnemonic} {r₁ r₂ : String} :
    (TablePass.registerForm options m r₁ r₂).Adds line := by
  unfold TablePass.registerForm
  split
  · exact (register r₁).bind fun _ => (register r₂).bind fun _ => .pure _
  · exact .refuse _

theorem instruction {m : Mnemonic} :
    (TablePass.instruction options block m operands).Adds line := by
  unfold TablePass.instruction
  split
  · exact .pure _
  · exact (register _).bind fun _ => .pure _
  · exact registerAddressForm
  · exact registerAddressForm
  · split
    · exact registerForm
    · exact registerAddressForm
  · exact registerAddressForm
  · exact addressForm
  · exact addressForm
  · exact .refuse _

/-- A step that is refused unless there is something. -/
theorem guarded (c : Prop) [Decidable c] (e : SourceError) (hx : x.Adds line) :
    (do
      unless c do TablePass.refuse e
      x).Adds line := by
  by_cases hc : c
  · simpa only [if_pos hc] using hx
  · simp only [if_neg hc]
    exact (refuse e).bind fun _ => hx

theorem operation {name : String} :
    (TablePass.operation options line block name operands).Adds line := by
  unfold TablePass.operation
  cases Operation.ofName? name with
  | none => exact .refuse _
  | some o =>
    cases o with
    | space =>
      dsimp only
      split
      · split
        · exact emit
        · exact .refuse _
      · exact .refuse _
    | constants =>
      dsimp only
      split
      · exact (refuse _).bind fun _ => (ofExcept _).bind fun _ => (cells _).bind fun _ => emit
      · exact (ofExcept _).bind fun _ => (cells _).bind fun _ => emit
    | transfer code =>
      dsimp only
      split
      · exact (address _).bind fun _ => (address _).bind fun _ => forM fun _ => emit
      · exact .refuse _
    | save => exact guarded _ _ (forM fun _ => emit)
    | restore => exact guarded _ _ (forM fun _ => emit)
    | machine m => exact instruction.bind fun _ => emit

theorem groups_define (r : Except SourceError Symbols) {change : Symbols → Tables} {t : Tables}
    (h : ∀ symbols, (change symbols).groups = t.groups) :
    ((TablePass.ofExcept r >>= fun symbols => set (change symbols) :
      TablePass Unit).after t).groups = t.groups := by
  cases r with
  | ok symbols => exact h symbols
  | error e => rfl

theorem after_get_bind (f : Tables → TablePass α) (t : Tables) :
    ((get : TablePass Tables) >>= f).after t = (f t).after t := rfl

theorem defineLabel {name : String} :
    (TablePass.defineLabel options block name).Adds line := by
  refine here.bind fun address => .nothing fun t => ?_
  rw [after_get_bind]
  split
  · exact groups_define _ fun _ => rfl
  · exact groups_define _ fun _ => rfl

theorem entryOperand : (TablePass.entryOperand operands).Adds line := by
  unfold TablePass.entryOperand
  split
  · exact .pure _
  · split
    · exact .pure _
    · exact .refuse _
  · exact .refuse _

theorem start {label : Option String} : (TablePass.start line label operands).Adds line := by
  have hopen (name : String) : (TablePass.entryOperand operands >>= fun entryLabel =>
      TablePass.openBlock line name entryLabel).Adds line :=
    entryOperand.bind fun _ => here.bind fun _ => .nothing fun _ => rfl
  refine read.bind fun t => ?_
  cases t.current with
  | none =>
    cases label with
    | none => exact .refuse _
    | some name => exact hopen name
  | some block =>
    refine blockAt.bind fun _ => (refuse _).bind fun _ => ?_
    cases label with
    | none => exact .refuse _
    | some name => exact hopen name

theorem placeLiterals {literals : List (List Word)} :
    (TablePass.placeLiterals line block literals).Adds line := by
  induction literals with
  | nil => exact .pure _
  | cons words rest ih =>
    have hfirst : (TablePass.placeLiteral line block words).Adds line :=
      here.bind fun _ => emit.bind fun _ => .pure _
    exact hfirst.bind fun _ => ih.bind fun _ => .pure _

theorem entryOf {b : TableBlock} : (TablePass.entryOf block b).Adds line := by
  unfold TablePass.entryOf
  split
  · exact .pure _
  · refine read.bind fun t => ?_
    split
    · exact .pure _
    · exact .refuse _

theorem enterBlock {name : String} {entry : Word} :
    (TablePass.enterBlock block name entry).Adds line := by
  refine (updateBlock _).bind fun _ => .nothing fun t => ?_
  rw [after, EStateM.run_bind, EStateM.run_get]
  dsimp only
  cases t.globals.define name entry <;> rfl

theorem closeBlock : (TablePass.closeBlock line block).Adds line :=
  blockAt.bind fun _ => (updateBlock _).bind fun _ => placeLiterals.bind fun _ =>
    (updateBlock _).bind fun _ => blockAt.bind fun _ => entryOf.bind fun _ => enterBlock

theorem finish {label : Option String} : (TablePass.finish line label operands).Adds line := by
  refine read.bind fun t => ?_
  cases t.current with
  | none => exact .refuse _
  | some block =>
    have hclose := guarded (operands.isEmpty = true) .endOperands (@closeBlock line block)
    refine (nothing fun _ => rfl).bind fun _ => ?_
    cases label with
    | none => exact hclose
    | some _ => exact (refuse _).bind fun _ => hclose

theorem body {label : Option String} {name : String} :
    (TablePass.body options line label name operands).Adds line := by
  refine read.bind fun t => ?_
  cases t.current with
  | none => exact .refuse _
  | some block =>
    cases label with
    | none => exact operation
    | some label => exact defineLabel.bind fun _ => operation

theorem labelled {label : Option String} (hx : x.Adds line) :
    (do
      if let some label := label then
        unless isLabel label.toList do TablePass.refuse (.invalidLabel label)
      x).Adds line := by
  cases label with
  | none => exact hx
  | some label => exact guarded _ _ hx

theorem statement (st : Statement) : (TablePass.statement options line st).Adds line := by
  refine labelled ?_
  split
  · exact start
  · split
    · exact finish
    · exact body

end Adds

end TablePass

namespace Tables

variable {options : AssemblyOptions} {line : Nat} {t t' : Tables}

/-- A statement adds groups of its own line, and no other line adds any. -/
theorem groups_of_addLine {text : List Char} (h : t.addLine options line text = some t') :
    ∃ gs, t'.groups = t.groups ++ gs ∧
      ∀ g ∈ gs, g.line = line ∧ ∃ st, Statement.ofLine text = .ok (some st) := by
  have hafter : t'.groups = ((TablePass.sourceLine options line text).after t).groups := by
    unfold addLine at h
    unfold TablePass.after
    cases hrun : (TablePass.sourceLine options line text).run t with
    | ok u s =>
      rw [hrun] at h
      cases h
      rfl
    | error stop s =>
      rw [hrun] at h
      cases stop with
      | refused e =>
        cases h
        rfl
      | outOfRange => cases h
  rw [hafter]
  unfold TablePass.sourceLine
  cases hread : Statement.ofLine text with
  | error e => exact ⟨[], (List.append_nil _).symm, nofun⟩
  | ok st =>
    cases st with
    | none => exact ⟨[], (List.append_nil _).symm, nofun⟩
    | some st =>
      obtain ⟨gs, hgs, hlines⟩ := TablePass.Adds.statement st t
      exact ⟨gs, hgs, fun g hg => ⟨hlines g hg, st, rfl⟩⟩

theorem groups_of_addLines {texts : List (List Char)}
    (h : t.addLines options line texts = some t') :
    ∃ gs, t'.groups = t.groups ++ gs ∧ ∀ g ∈ gs, ∃ i text st, g.line = line + i ∧
      texts[i]? = some text ∧ Statement.ofLine text = .ok (some st) := by
  induction texts generalizing t line with
  | nil =>
    cases h
    exact ⟨[], (List.append_nil _).symm, nofun⟩
  | cons text rest ih =>
    obtain ⟨s, hfirst, hrest⟩ := Option.bind_eq_some_iff.mp h
    obtain ⟨gs, hgs, hlines⟩ := groups_of_addLine hfirst
    obtain ⟨more, hmore, hlines'⟩ := ih hrest
    refine ⟨gs ++ more, by rw [hmore, hgs, List.append_assoc], fun g hg => ?_⟩
    rcases List.mem_append.mp hg with hg | hg
    · obtain ⟨hline, st, hst⟩ := hlines g hg
      exact ⟨0, text, st, hline, rfl, hst⟩
    · obtain ⟨i, text', st, hline, htext, hst⟩ := hlines' g hg
      exact ⟨i + 1, text', st, by omega, htext, hst⟩

/-- Each group is of a statement of the source. -/
theorem statement_of_ofLines {texts : List (List Char)} (h : ofLines options texts = some t) :
    ∀ g ∈ t.groups, ∃ text st, texts[g.line]? = some text ∧
      Statement.ofLine text = .ok (some st) := by
  obtain ⟨s, hlines, h⟩ := Option.bind_eq_some_iff.mp h
  obtain ⟨r, hopen, h⟩ := Option.bind_eq_some_iff.mp h
  obtain ⟨gs, hgs, hstatements⟩ := groups_of_addLines hlines
  have hr : r.groups = s.groups := by
    unfold reportOpen at hopen
    split at hopen
    · obtain ⟨b, -, rfl⟩ := Option.map_eq_some_iff.mp hopen
      rfl
    · cases hopen
      rfl
  have ht : t.groups = r.groups := by
    obtain rfl := Option.some.inj h
    split <;> rfl
  rw [ht, hr, hgs]
  intro g hg
  obtain ⟨i, text, st, hline, htext, hst⟩ := hstatements g hg
  exact ⟨text, st, by rwa [hline, Nat.zero_add], hst⟩

end Tables

end Comet.Assembly
