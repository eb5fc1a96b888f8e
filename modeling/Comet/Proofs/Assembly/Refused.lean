import Comet.Proofs.Assembly.Taken
import Comet.Proofs.Assembly.TableSteps

namespace Comet.Assembly

namespace Pass

variable {α β : Type} {s : Layout} {e : SourceError}

/-- The step is refused for this error. -/
def Refuses (x : Pass α) (s : Layout) (e : SourceError) : Prop := ∃ s', x.run s = .error e s'

theorem accepts_or_refuses (x : Pass α) (s : Layout) :
    (∃ a s', Accepts x s a s') ∨ ∃ e, Refuses x s e := by
  cases hrun : x.run s with
  | ok a s' => exact Or.inl ⟨a, s', hrun⟩
  | error e s' => exact Or.inr ⟨e, s', hrun⟩

@[simp] theorem refuses_pure (a : α) : ¬ Refuses (pure a) s e := nofun

@[simp] theorem refuses_throw (e' : SourceError) : Refuses (throw e' : Pass α) s e ↔ e' = e := by
  constructor
  · rintro ⟨_, ⟨⟩⟩
    rfl
  · rintro rfl
    exact ⟨s, rfl⟩

@[simp] theorem refuses_bind (x : Pass α) (f : α → Pass β) :
    Refuses (x >>= f) s e ↔ Refuses x s e ∨ ∃ a t, Accepts x s a t ∧ Refuses (f a) t e := by
  unfold Refuses Accepts
  rw [EStateM.run_bind]
  cases x.run s with
  | ok a t => simp [and_assoc]
  | error e' t => simp

@[simp] theorem refuses_map (x : Pass α) (g : α → β) : Refuses (g <$> x) s e ↔ Refuses x s e := by
  rw [map_eq_pure_bind, refuses_bind]
  simp

@[simp] theorem refuses_get : ¬ Refuses (get : Pass Layout) s e := nofun

theorem refuses_get_bind (f : Layout → Pass β) :
    Refuses (get >>= f) s e ↔ Refuses (f s) s e := by
  simp [and_assoc]

@[simp] theorem refuses_set (t : Layout) : ¬ Refuses (set t : Pass PUnit) s e := nofun

@[simp] theorem refuses_modify (f : Layout → Layout) :
    ¬ Refuses (modify f : Pass PUnit) s e := nofun

@[simp] theorem refuses_modifyBlock (f : Block → Block) : ¬ Refuses (modifyBlock f) s e := nofun

@[simp] theorem refuses_ofExcept (r : Except SourceError α) :
    Refuses (ofExcept r) s e ↔ r = .error e := by
  cases r with
  | ok a => simp [ofExcept]
  | error e' => simp [ofExcept]

@[simp] theorem refuses_here : Refuses here s e ↔ memorySize ≤ s.location ∧ e = .memoryFull := by
  unfold Refuses
  rw [run_here]
  by_cases h : s.location < memorySize
  · simp [h, Nat.not_le.mpr h]
  · simp [h, Nat.not_lt.mp h, eq_comm]

@[simp] theorem refuses_reserve (size : Nat) : Refuses (reserve size) s e ↔
    ¬ (s.location < memorySize ∧ s.location + size ≤ memorySize) ∧ e = .memoryFull := by
  unfold Refuses
  rw [run_reserve]
  by_cases h : s.location < memorySize ∧ s.location + size ≤ memorySize
  · simp [h]
  · simp only [h, if_false, not_false_eq_true, true_and]
    simp [eq_comm]

end Pass

namespace Pass

open SymbolicInstruction

variable {options : AssemblyOptions} {line : Nat} {s : Layout} {e : SourceError}

theorem refuses_emit {isInstruction : Bool} {cells : List Cell} :
    Refuses (emit line isInstruction cells) s e ↔
      ¬ (s.location < memorySize ∧ s.location + cells.length ≤ memorySize) ∧ e = .memoryFull := by
  simp [emit]

theorem refuses_emitAll {is : List SymbolicInstruction}
    (h : Refuses (is.forM fun i => emit line true i.cells) s e) :
    e = .memoryFull ∧ ¬ Tiles s.location ((instructionPieces line s.location is).map Piece.extent)
      (s.location + (is.flatMap (·.cells)).length) := by
  induction is generalizing s with
  | nil => exact absurd h (refuses_pure _)
  | cons i rest ih =>
    rcases (refuses_bind _ _).mp h with hfirst | ⟨_, t, hfirst, hrest⟩
    · obtain ⟨hfull, rfl⟩ := refuses_emit.mp hfirst
      refine ⟨rfl, fun htiles => ?_⟩
      cases htiles with
      | cons hfree hfits => exact hfull ⟨hfree, hfits⟩
    · obtain ⟨-, -, rfl⟩ := accepts_emit hfirst
      obtain ⟨rfl, hfull⟩ := ih hrest
      refine ⟨rfl, fun htiles => hfull ?_⟩
      have hlast : s.location + i.cells.length + (rest.flatMap (·.cells)).length =
          s.location + ((i :: rest).flatMap (·.cells)).length := by
        simp only [List.flatMap_cons, List.length_append]
        omega
      cases htiles with
      | cons _ _ hbehind =>
        rw [← hlast] at hbehind
        exact hbehind

theorem refuses_address {text : String} (h : Refuses (address text) s e) :
    addressOperand text.toList = .error e := by
  simp only [address, refuses_bind, refuses_ofExcept, accepts_ofExcept] at h
  rcases h with h | ⟨cell, t, -, h⟩
  · exact h
  · cases cell <;> simp at h

/-- An operand that can be read is never refused. -/
theorem not_refuses_address {text : String} {cell : Cell}
    (h : addressOperand text.toList = .ok cell) : ¬ Refuses (address text) s e := by
  intro hrefused
  rw [refuses_address hrefused] at h
  cases h

theorem not_refuses_addressForm {m : Mnemonic} {r x : RegisterField} {adr : String} {cell : Cell}
    {index : Option String} (hadr : addressOperand adr.toList = .ok cell)
    (hx : index? options index = some x) : ¬ Refuses (addressForm options m r adr index) s e := by
  simp [addressForm, index?_eq_some_iff.mp hx, not_refuses_address hadr]

theorem not_refuses_register {text : String} {r : RegisterField}
    (hr : register? options text = some r) :
    ¬ Refuses (ofExcept (Pass.register options text)) s e := by
  rw [register?_eq_some_iff.mp hr]
  exact refuses_pure r

theorem not_refuses_registerAddressForm {m : Mnemonic} {r x : RegisterField} {text adr : String}
    {cell : Cell} {index : Option String} (hr : register? options text = some r)
    (hadr : addressOperand adr.toList = .ok cell) (hx : index? options index = some x) :
    ¬ Refuses (registerAddressForm options m text adr index) s e := by
  rw [registerAddressForm, refuses_bind, not_or]
  refine ⟨not_refuses_register hr, ?_⟩
  rintro ⟨r', t, -, hrefused⟩
  exact not_refuses_addressForm hadr hx hrefused

theorem not_refuses_registerForm {m : Mnemonic} {r x : RegisterField} {text₁ text₂ : String}
    (hm : m.registerOpcode.isSome = true) (hr : register? options text₁ = some r)
    (hx : register? options text₂ = some x) :
    ¬ Refuses (registerForm options m text₁ text₂) s e := by
  obtain ⟨opcode, hopcode⟩ := Option.isSome_iff_exists.mp hm
  simp only [registerForm, hopcode, refuses_bind, not_or]
  refine ⟨not_refuses_register hr, ?_⟩
  rintro ⟨_, t, -, hsecond | ⟨_, t', -, hpure⟩⟩
  · exact not_refuses_register hx hsecond
  · exact refuses_pure _ hpure

/-- An instruction whose operands can be read is never refused. -/
theorem not_refuses_instruction {m : Mnemonic} {operands : List String} {i : SymbolicInstruction}
    (h : Reads options m operands i) : ¬ Refuses (instruction options m operands) s e := by
  cases h with
  | empty hform => simp [instruction, hform]
  | register hform hr =>
    simp only [instruction, hform, refuses_bind, not_or]
    exact ⟨not_refuses_register hr, by simp⟩
  | registers hform hlike hr hx =>
    simp only [instruction, hform, hlike, if_true]
    exact not_refuses_registerForm (Mnemonic.registerOpcode_isSome hform) hr hx
  | registerAddress index hform hr hadr hx =>
    cases index with
    | none | some =>
      simp only [instruction, hform, Option.toList_none, Option.toList_some]
      exact not_refuses_registerAddressForm hr hadr hx
  | registerOrAddress index hform hlike hr hadr hx =>
    cases index with
    | none =>
      simp only [instruction, hform, Option.toList_none, hlike, Bool.false_eq_true, if_false]
      exact not_refuses_registerAddressForm hr hadr hx
    | some =>
      simp only [instruction, hform, Option.toList_some]
      exact not_refuses_registerAddressForm hr hadr hx
  | address index hform hadr hx =>
    cases index with
    | none | some =>
      simp only [instruction, hform, Option.toList_none, Option.toList_some]
      exact not_refuses_addressForm hadr hx

/-- A statement that can be read is refused only if there is no room for what it denotes. -/
theorem refuses_operation {name : String} {operands : List String} {content : Content}
    (hread : Content.read? options name operands = some content)
    (h : Refuses (operation options line name operands) s e) :
    e = .memoryFull ∧ ¬ Tiles s.location ((content.pieces line s.location).map Piece.extent)
      (s.location + content.cells.length) := by
  have hdata {cells : List Cell} (h : Refuses (emit line false cells) s e) :
      e = .memoryFull ∧
        ¬ Tiles s.location (((Content.data cells).pieces line s.location).map Piece.extent)
          (s.location + (Content.data cells).cells.length) := by
    obtain ⟨hfull, rfl⟩ := refuses_emit.mp h
    refine ⟨rfl, fun htiles => ?_⟩
    cases htiles with
    | cons hfree hfits => exact hfull ⟨hfree, hfits⟩
  obtain ⟨found, hname, hreads⟩ := Content.read?_eq_some_iff.mp hread
  unfold operation at h
  simp only [hname] at h
  cases hreads with
  | space hsize =>
    simp only [hsize] at h
    exact hdata h
  | constants hsome hcells =>
    obtain ⟨text, rest, rfl⟩ := List.exists_cons_of_ne_nil hsome
    simp only [List.isEmpty_cons, Bool.false_eq_true, if_false, hcells] at h
    exact hdata h
  | transfer hbuffer hlength =>
    simp only [refuses_bind] at h
    rcases h with h | ⟨b', t, hb, h | ⟨l', t', hl, h⟩⟩
    · exact absurd h (not_refuses_address hbuffer)
    · exact absurd h (not_refuses_address hlength)
    · obtain ⟨hb', rfl⟩ := accepts_address hb
      obtain ⟨hl', rfl⟩ := accepts_address hl
      obtain rfl := Except.ok.inj (hbuffer.symm.trans hb')
      obtain rfl := Except.ok.inj (hlength.symm.trans hl')
      exact @refuses_emitAll line ((s.note _).note _) e (SymbolicInstruction.transfer _ _ _) h
  | save =>
    simp only [List.isEmpty_nil, if_true] at h
    exact @refuses_emitAll line s e (savedRegisters.map SymbolicInstruction.save) h
  | restore =>
    simp only [List.isEmpty_nil, if_true] at h
    exact @refuses_emitAll line s e (savedRegisters.reverse.map SymbolicInstruction.restore) h
  | @machine m operands i hi =>
    rcases (refuses_bind _ _).mp h with h | ⟨cells, t, hcells, h⟩
    · exact absurd h (not_refuses_instruction hi)
    · obtain ⟨i', hi', rfl, rfl⟩ := accepts_instruction hcells
      obtain rfl := Option.some.inj (hi.read?_eq.symm.trans hi'.read?_eq)
      refine @refuses_emitAll line s e [i] ?_
      obtain ⟨hfull, rfl⟩ := refuses_emit.mp h
      exact (refuses_bind _ _).mpr (Or.inl (refuses_emit.mpr ⟨hfull, rfl⟩))

theorem refuses_placeLiterals {literals : List (List Word)}
    (h : Refuses (placeLiterals literals) s e) :
    e = .memoryFull ∧ ¬ Tiles s.location ((placePool s.location literals).map literalExtent)
      (s.location + literals.flatten.length) := by
  induction literals generalizing s with
  | nil => exact absurd h (refuses_pure _)
  | cons words rest ih =>
    simp only [placeLiterals, refuses_bind, refuses_reserve, accepts_reserve, refuses_pure,
      and_false, exists_false, or_false] at h
    rcases h with ⟨hfull, rfl⟩ | ⟨_, t, ⟨-, -, rfl, rfl⟩, hrest⟩
    · refine ⟨rfl, fun htiles => ?_⟩
      cases htiles with
      | cons hfree hfits => exact hfull ⟨hfree, hfits⟩
    · obtain ⟨rfl, hfull⟩ := ih hrest
      refine ⟨rfl, fun htiles => hfull ?_⟩
      have hlast : s.location + words.length + rest.flatten.length =
          s.location + (words :: rest).flatten.length := by
        simp only [List.flatten_cons, List.length_append]
        omega
      cases htiles with
      | cons _ _ hbehind =>
        rw [← hlast] at hbehind
        exact hbehind

theorem define_eq_error {table : Symbols} {name : String} {address : Word} :
    table.define name address = .error e ↔
      (table.lookup name).isSome = true ∧ e = .duplicateLabel name := by
  unfold Symbols.define
  by_cases hdefined : (table.lookup name).isSome = true
  · simp [hdefined, eq_comm]
  · simp [hdefined]

end Pass

/-- The table in which a label of the block is defined. -/
def Layout.tableOf (options : AssemblyOptions) (s : Layout) (b : Block) : Symbols :=
  if options.labelScope then b.labels else s.globals

/-- Why a row is refused that can be read by itself: there is a block where there should be none, or
none where there should be one, a name is defined already or not at all, or memory is full. -/
inductive Layout.Declines (options : AssemblyOptions) (line : Nat) (s : Layout) :
    Row → SourceError → Prop
  | nested (name : String) (entryLabel : Option String) {b : Block} (hopened : s.opened = some b) :
      Declines options line s (.start name entryLabel) (.nestedStart b.name)
  | startless (name : String) (entryLabel : Option String) (hopened : s.opened = none)
      (hfull : memorySize ≤ s.location) :
      Declines options line s (.start name entryLabel) .memoryFull
  | outside (label : Option String) (content : Content) (opcode : String)
      (hopened : s.opened = none) :
      Declines options line s (.body label content) (.outsideBlock opcode)
  | unlabelled (name : String) (content : Content) {b : Block} (hopened : s.opened = some b)
      (hfull : memorySize ≤ s.location) :
      Declines options line s (.body (some name) content) .memoryFull
  | duplicate (name : String) (content : Content) {b : Block} (hopened : s.opened = some b)
      (hdefined : ((s.tableOf options b).lookup name).isSome = true) :
      Declines options line s (.body (some name) content) (.duplicateLabel name)
  | roomless (label : Option String) (content : Content) {b : Block} (hopened : s.opened = some b)
      (hfull : ¬ Tiles s.location ((content.pieces line s.location).map Piece.extent)
        (s.location + content.cells.length)) :
      Declines options line s (.body label content) .memoryFull
  | unopened (hopened : s.opened = none) : Declines options line s .finish .endWithoutStart
  | poolless {b : Block} (hopened : s.opened = some b)
      (hfull : ¬ Tiles s.location ((placePool s.location b.literals).map literalExtent)
        (s.location + b.literals.flatten.length)) :
      Declines options line s .finish .memoryFull
  | entryless {b : Block} {name : String} (hopened : s.opened = some b)
      (hlabel : b.entryLabel = some name) (hundefined : b.resolve s.globals name = none) :
      Declines options line s .finish (.undefinedLabel name)
  | nameless {b : Block} (hopened : s.opened = some b)
      (hdefined : (s.globals.lookup b.name).isSome = true) :
      Declines options line s .finish (.duplicateLabel b.name)

/-- What the layout takes it does not decline. -/
theorem Layout.Takes.not_declines {options : AssemblyOptions} {line : Nat} {s t : Layout}
    {row : Row} {e : SourceError} (h : s.Takes options line (some row) t) :
    ¬ s.Declines options line row e := by
  have hfree {table table' : Symbols} {name : String} {w : Word}
      (h : table.define name w = .ok table') : ¬ (table.lookup name).isSome = true := by
    intro hdefined
    rw [Symbols.define, if_pos hdefined] at h
    cases h
  have hsame {b c : Block} (hb : s.opened = some b) (hc : s.opened = some c) : b = c :=
    Option.some.inj (hb.symm.trans hc)
  intro hdeclines
  cases h with
  | start name entryLabel hopened hlocation =>
    cases hdeclines with
    | nested _ _ hopened' => exact absurd (hopened.symm.trans hopened') nofun
    | startless _ _ _ hfull => omega
  | body b label content labels globals hopened hdefines htiles =>
    cases hdeclines with
    | outside _ _ _ hopened' => exact absurd (hopened.symm.trans hopened') nofun
    | unlabelled _ _ _ hfull =>
      cases hdefines with
      | own _ hlocation | shared _ hlocation => omega
    | duplicate _ _ hopened' hdefined =>
      obtain rfl := hsame hopened hopened'
      unfold Layout.tableOf at hdefined
      cases hdefines with
      | own hscope _ hlabels =>
        rw [if_pos hscope] at hdefined
        exact hfree hlabels hdefined
      | shared hscope _ hglobals =>
        rw [if_neg (by rw [hscope]; exact Bool.false_ne_true)] at hdefined
        exact hfree hglobals hdefined
    | roomless _ _ _ hfull => exact hfull htiles
  | finish b entry globals hopened hentry hglobals htiles =>
    cases hdeclines with
    | unopened hopened' => exact absurd (hopened.symm.trans hopened') nofun
    | poolless hopened' hfull =>
      obtain rfl := hsame hopened hopened'
      exact hfull htiles
    | entryless hopened' hlabel hundefined =>
      obtain rfl := hsame hopened hopened'
      rw [Block.entry?, hlabel] at hentry
      exact absurd (hentry.symm.trans hundefined) nofun
    | nameless hopened' hdefined =>
      obtain rfl := hsame hopened hopened'
      exact hfree hglobals hdefined

namespace Pass

variable {options : AssemblyOptions} {line : Nat} {s : Layout} {e : SourceError}

theorem refuses_defineLabel {b : Block} {name : String} (hopened : s.opened = some b)
    (h : Refuses (defineLabel options name) s e) :
    memorySize ≤ s.location ∧ e = .memoryFull ∨
      ((s.tableOf options b).lookup name).isSome = true ∧ e = .duplicateLabel name := by
  simp only [defineLabel, refuses_bind, refuses_here, accepts_here, refuses_get, accepts_get,
    false_or] at h
  rcases h with h | ⟨_, _, ⟨-, rfl, rfl⟩, _, _, ⟨rfl, rfl⟩, h⟩
  · exact Or.inl h
  · right
    unfold Layout.tableOf
    cases hscope : options.labelScope with
    | true | false =>
      simp only [hscope, hopened, refuses_bind, refuses_ofExcept, refuses_set, and_false,
        exists_false, or_false, define_eq_error] at h
      simpa using h

theorem refuses_start {name : String} {entryLabel : Option String}
    (hentry : ∀ l ∈ entryLabel, isLabel l.toList = true)
    (h : Refuses (start line (some name) entryLabel.toList) s e) :
    s.Declines options line (.start name entryLabel) e := by
  unfold start at h
  rw [refuses_get_bind] at h
  cases hopened : s.opened with
  | some b =>
    obtain rfl : SourceError.nestedStart b.name = e := by simpa [hopened] using h
    exact .nested name entryLabel hopened
  | none =>
    simp only [hopened] at h
    cases entryLabel with
    | none =>
      simp only [Option.toList_none, pure_bind, refuses_bind, refuses_here, refuses_modify,
        and_false, exists_false, or_false] at h
      obtain ⟨hfull, rfl⟩ := h
      exact .startless name none hopened hfull
    | some entry =>
      have hlabel : isLabel entry.toList = true := hentry entry rfl
      simp only [Option.toList_some, hlabel, if_true, pure_bind, refuses_bind, refuses_here,
        refuses_modify, and_false, exists_false, or_false] at h
      obtain ⟨hfull, rfl⟩ := h
      exact .startless name (some entry) hopened hfull

theorem refuses_finish (h : Refuses (finish none []) s e) :
    s.Declines options line .finish e := by
  unfold finish at h
  rw [refuses_get_bind] at h
  cases hopened : s.opened with
  | none =>
    obtain rfl : SourceError.endWithoutStart = e := by simpa [hopened] using h
    exact .unopened hopened
  | some b =>
    simp only [hopened, refuses_bind, refuses_modify, accepts_modify, false_or] at h
    obtain ⟨_, _, rfl, h⟩ := h
    simp only [Option.isSome_none, Bool.false_eq_true, if_false, List.isEmpty_nil, if_true] at h
    rcases (refuses_bind _ _).mp h with h | ⟨pool, t, hpool, h⟩
    · obtain ⟨rfl, hfull⟩ := refuses_placeLiterals h
      exact .poolless hopened hfull
    · obtain ⟨rfl, -, ht⟩ := accepts_placeLiterals hpool
      have hglobals : t.globals = s.globals := by rw [ht]
      rw [refuses_get_bind] at h
      have hname {entry : Word} (h : Refuses (do
            let globals ← ofExcept (t.globals.define b.name entry)
            set { t with
              globals, closed := t.closed.push
                { b with entry, pool := placePool s.location b.literals } }) t e) :
          s.Declines options line .finish e := by
        simp only [refuses_bind, refuses_ofExcept, refuses_set, and_false, exists_false, or_false,
          define_eq_error, hglobals] at h
        obtain ⟨hdefined, rfl⟩ := h
        exact .nameless hopened hdefined
      cases hlabel : b.entryLabel with
      | none =>
        simp only [hlabel] at h
        exact hname (by simpa using h)
      | some name =>
        simp only [hlabel] at h
        cases hresolve : b.resolve t.globals name with
        | none =>
          obtain rfl : SourceError.undefinedLabel name = e := by simpa [hresolve] using h
          exact .entryless hopened hlabel (hglobals ▸ hresolve)
        | some address => exact hname (by simpa [hresolve] using h)

/-- A label that is one is no reason for a refusal. -/
theorem refuses_of_labelled {label : Option String} {x : Pass Unit}
    (hlabel : ∀ l ∈ label, isLabel l.toList = true) (h : Refuses (match label with
      | some label =>
        if isLabel label.toList = true then x
        else (throw (.invalidLabel label) : Pass PUnit) >>= fun _ => x
      | _ => x) s e) : Refuses x s e := by
  cases label with
  | some l =>
    have hl : isLabel l.toList = true := hlabel l rfl
    simpa only [hl, if_true] using h
  | none => exact h

theorem isLabel_of_labelled {label : Option String} {x : Pass Unit} {u : Unit} {s' : Layout}
    (h : Accepts (match label with
      | some label =>
        if isLabel label.toList = true then x
        else (throw (.invalidLabel label) : Pass PUnit) >>= fun _ => x
      | _ => x) s u s') : ∀ l ∈ label, isLabel l.toList = true := by
  rintro l ⟨⟩
  refine Decidable.byContradiction fun hinvalid => ?_
  simp [hinvalid] at h

theorem isLabel_of_statement {st : Statement} {u : Unit} {s' : Layout}
    (h : Accepts (statement options line st) s u s') :
    ∀ l ∈ st.label, isLabel l.toList = true := by
  obtain ⟨label, opcode, operands⟩ := st
  unfold statement at h
  split at h
  all_goals exact isLabel_of_labelled h

theorem refuses_body {label : Option String} {opcode : String} {operands : List String}
    {content : Content} (hread : Content.read? options opcode operands = some content)
    (h : Refuses (do
      if (← get).opened.isNone then throw (.outsideBlock opcode)
      if let some label := label then defineLabel options label
      operation options line opcode operands) s e) :
    s.Declines options line (.body label content) e := by
  rw [refuses_get_bind] at h
  cases hopened : s.opened with
  | none =>
    obtain rfl : SourceError.outsideBlock opcode = e := by simpa [hopened] using h
    exact .outside label content opcode hopened
  | some b =>
    simp only [hopened, Option.isNone_some, Bool.false_eq_true, if_false] at h
    cases label with
    | none =>
      obtain ⟨rfl, hfull⟩ := refuses_operation hread h
      exact .roomless none content hopened hfull
    | some name =>
      rcases (refuses_bind _ _).mp h with hdefine | ⟨_, t, hdefine, hoperation⟩
      · rcases refuses_defineLabel hopened hdefine with ⟨hfull, rfl⟩ | ⟨hdefined, rfl⟩
        · exact .unlabelled name content hopened hfull
        · exact .duplicate name content hopened hdefined
      · obtain ⟨labels, globals, -, rfl⟩ := accepts_defineLabel hopened hdefine
        obtain ⟨rfl, hfull⟩ := refuses_operation hread hoperation
        exact .roomless (some name) content hopened hfull

theorem refuses_statement {st : Statement} {row : Row}
    (hlabel : ∀ l ∈ st.label, isLabel l.toList = true) (hreads : Row.Reads options st row)
    (h : Refuses (statement options line st) s e) : s.Declines options line row e := by
  unfold statement at h
  cases hreads with
  | start entryLabel hentry => exact refuses_start hentry (refuses_of_labelled hlabel h)
  | @body label opcode operands content hstart hend hcontent =>
    simp only at h
    exact refuses_body hcontent (refuses_of_labelled hlabel h)
  | finish => exact refuses_finish (refuses_of_labelled hlabel h)

end Pass

/-- The line can be read by itself, as this row or as a blank line, and what stands for a label in
it is one. -/
structure Understood (options : AssemblyOptions) (text : List Char) (row : Option Row) : Prop where
  row : Row.ofLine? options text = some row
  label : ∀ st, Statement.ofLine text = .ok (some st) → ∀ l ∈ st.label, isLabel l.toList = true

namespace Pass

variable {options : AssemblyOptions} {line : Nat} {s t : Layout} {e : SourceError}
  {text : List Char}

/-- What is accepted has been understood and is taken. -/
theorem understood_of_sourceLine {u : Unit} (h : Accepts (sourceLine options line text) s u t) :
    ∃ row, Understood options text row ∧ s.Takes options line row t := by
  obtain ⟨row, hrow, htakes⟩ := takes_of_sourceLine h
  refine ⟨row, ⟨hrow, fun st hst => ?_⟩, htakes⟩
  rw [sourceLine, hst] at h
  exact isLabel_of_statement h

/-- What has been understood is refused for what came before it. -/
theorem declines_of_sourceLine {row : Option Row} (hrow : Understood options text row)
    (h : Refuses (sourceLine options line text) s e) :
    ∃ r, row = some r ∧ s.Declines options line r e := by
  rcases Row.ofLine?_eq_some_iff.mp hrow.row with ⟨hblank, -⟩ | ⟨st, r, hst, rfl, hreads⟩
  · rw [sourceLine, hblank] at h
    exact absurd h (refuses_pure _)
  · rw [sourceLine, hst] at h
    exact ⟨r, rfl, refuses_statement (hrow.label st hst) hreads h⟩

end Pass

/-- A line at which nothing is wrong has been understood and is taken. -/
theorem Layout.understood_of_addLine {options : AssemblyOptions} {line : Nat} {s : Layout}
    {text : List Char} (h : (s.addLine options line text).diagnostics = #[]) :
    ∃ row, Understood options text row ∧
      s.Takes options line row (s.addLine options line text) := by
  unfold addLine at h ⊢
  cases hrun : (Pass.sourceLine options line text).run s with
  | error e t => simp [hrun, report] at h
  | ok u t => exact Pass.understood_of_sourceLine hrun

/-- What the layout takes is decided by the row. -/
theorem Layout.Takes.unique {options : AssemblyOptions} {line : Nat} {s t t' : Layout}
    {row : Option Row} (h : s.Takes options line row t) (h' : s.Takes options line row t') :
    t = t' := by
  have hsame {b c : Block} (hb : s.opened = some b) (hc : s.opened = some c) : b = c :=
    Option.some.inj (hb.symm.trans hc)
  cases h with
  | blank =>
    cases h'
    rfl
  | start =>
    cases h'
    rfl
  | body b label content labels globals hopened hdefines htiles =>
    cases h' with
    | body c _ _ labels' globals' hopened' hdefines' _ =>
      obtain rfl := hsame hopened hopened'
      obtain ⟨rfl, rfl⟩ : labels = labels' ∧ globals = globals' := by
        cases hdefines with
        | none =>
          cases hdefines'
          exact ⟨rfl, rfl⟩
        | own hscope _ hlabels =>
          cases hdefines' with
          | own _ _ hlabels' => exact ⟨Except.ok.inj (hlabels.symm.trans hlabels'), rfl⟩
          | shared hscope' => exact absurd (hscope.symm.trans hscope') nofun
        | shared hscope _ hglobals =>
          cases hdefines' with
          | own hscope' => exact absurd (hscope.symm.trans hscope') nofun
          | shared _ _ hglobals' => exact ⟨rfl, Except.ok.inj (hglobals.symm.trans hglobals')⟩
      rfl
  | finish b entry globals hopened hentry hglobals htiles =>
    cases h' with
    | finish c entry' globals' hopened' hentry' hglobals' _ =>
      obtain rfl := hsame hopened hopened'
      obtain rfl := Option.some.inj (hentry.symm.trans hentry')
      obtain rfl := Except.ok.inj (hglobals.symm.trans hglobals')
      rfl

/-- A line that is understood and can be taken is accepted. -/
theorem Layout.addLine_of_takes {options : AssemblyOptions} {line : Nat} {s t : Layout}
    {text : List Char} {row : Option Row} (hrow : Understood options text row)
    (h : s.Takes options line row t) : s.addLine options line text = t := by
  rcases Pass.accepts_or_refuses (Pass.sourceLine options line text) s with
    ⟨u, t', haccepts⟩ | ⟨e, hrefuses⟩
  · obtain ⟨row', hrow', htakes⟩ := Pass.understood_of_sourceLine haccepts
    obtain rfl : row = row' := Option.some.inj (hrow.row.symm.trans hrow'.row)
    rw [addLine, show (Pass.sourceLine options line text).run s = .ok u t' from haccepts]
    exact htakes.unique h
  · obtain ⟨r, rfl, hdeclines⟩ := Pass.declines_of_sourceLine hrow hrefuses
    exact absurd hdeclines h.not_declines

end Comet.Assembly
