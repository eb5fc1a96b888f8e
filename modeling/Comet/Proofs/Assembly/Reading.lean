import Comet.Proofs.Assembly.Listing

namespace Comet

namespace Assembly

section except

variable {ε α β : Type}

@[simp] theorem bind_eq_ok (x : Except ε α) (f : α → Except ε β) (b : β) :
    (x >>= f) = .ok b ↔ ∃ a, x = .ok a ∧ f a = .ok b := by
  cases x with
  | ok a => simp [bind, Except.bind]
  | error e => simp [bind, Except.bind]

@[simp] theorem toOption_eq_some (x : Except ε α) (a : α) : x.toOption = some a ↔ x = .ok a := by
  cases x with
  | ok b => simp [Except.toOption]
  | error e => simp [Except.toOption]

theorem exists_of_mapM_eq_ok {f : α → Except ε β} {xs : List α} {ys : List β}
    (h : xs.mapM f = .ok ys) {y : β} (hy : y ∈ ys) : ∃ x ∈ xs, f x = .ok y := by
  induction xs generalizing ys with
  | nil =>
    cases h
    cases hy
  | cons x rest ih =>
    rw [List.mapM_cons] at h
    simp only [bind_eq_ok] at h
    obtain ⟨z, hz, zs, hzs, hys⟩ := h
    obtain rfl : z :: zs = ys := Except.ok.inj hys
    rcases List.mem_cons.mp hy with rfl | hy
    · exact ⟨x, List.mem_cons_self, hz⟩
    · obtain ⟨x', hx', hf⟩ := ih hzs hy
      exact ⟨x', List.mem_cons_of_mem _ hx', hf⟩

end except

section names

variable {options : AssemblyOptions} {r x : RegisterField} {text : String}

open SymbolicInstruction

theorem lookup_registerNames_iff :
    registerNames.lookup text = some r ↔ (text, r) ∈ registerNames := by
  constructor
  · intro h
    obtain ⟨before, behind, heq, -⟩ := List.lookup_eq_some_iff.mp h
    rw [heq]
    exact List.mem_append_right _ List.mem_cons_self
  · intro h
    have hall : ∀ p ∈ registerNames, registerNames.lookup p.1 = some p.2 := by decide
    exact hall (text, r) h

/-- The registers below `GR8` have their numbers as digits. -/
theorem mem_registerNames_of_digit {d : Char} (hlow : '0' ≤ d) (hhigh : d ≤ '7') :
    (.ofList ['G', 'R', d], .ofNat 16 (d.toNat - '0'.toNat)) ∈ registerNames ∧
      Fin.ofNat 16 (d.toNat - '0'.toNat) ≠ 8 := by
  have hall : ∀ n < 56, 48 ≤ n →
      (.ofList ['G', 'R', Char.ofNat n], .ofNat 16 ((Char.ofNat n).toNat - '0'.toNat)) ∈
        registerNames ∧ Fin.ofNat 16 ((Char.ofNat n).toNat - '0'.toNat) ≠ 8 := by decide
  have hlow : 48 ≤ d.toNat := hlow
  have hhigh : d.toNat ≤ 55 := hhigh
  rw [← Char.ofNat_toNat d]
  exact hall d.toNat (by omega) hlow

/-- The layout reads the names of the registers, and nothing else, as registers. -/
theorem register_eq_ok_iff : Pass.register options text = .ok r ↔
    (text, r) ∈ registerNames ∧ (r = 8 → options.useGr8 = true) := by
  constructor
  · intro h
    unfold Pass.register at h
    split at h
    case h_1 d htext =>
      obtain rfl : text = .ofList ['G', 'R', d] := by rw [← htext, String.ofList_toList]
      by_cases height : d = '8'
      · rw [if_pos height] at h
        by_cases huse : options.useGr8 = true
        · rw [if_pos huse] at h
          cases h
          exact ⟨by rw [height]; decide, fun _ => huse⟩
        · rw [if_neg huse] at h
          cases h
      · rw [if_neg height] at h
        by_cases hdigit : '0' ≤ d ∧ d ≤ '7'
        · rw [if_pos hdigit] at h
          cases h
          obtain ⟨hname, hother⟩ := mem_registerNames_of_digit hdigit.1 hdigit.2
          exact ⟨hname, fun h8 => absurd h8 hother⟩
        · rw [if_neg hdigit] at h
          cases h
    case h_2 => cases h
  · rintro ⟨hname, huse⟩
    have hall : ∀ p ∈ registerNames, p.2 = 8 ∨ Pass.register options p.1 = .ok p.2 := by
      simp only [registerNames, List.forall_mem_cons]
      exact ⟨.inr rfl, .inr rfl, .inr rfl, .inr rfl, .inr rfl, .inr rfl, .inr rfl, .inr rfl,
        .inl trivial, nofun⟩
    rcases hall (text, r) hname with height | hread
    · have hlast : ∀ p ∈ registerNames, p.2 = 8 → p.1 = "GR8" := by decide
      obtain rfl : text = "GR8" := hlast (text, r) hname height
      obtain rfl : r = 8 := height
      simp [Pass.register, huse rfl]
    · exact hread

theorem register?_eq_some_iff : register? options text = some r ↔
    Pass.register options text = .ok r := by
  rw [register_eq_ok_iff, ← lookup_registerNames_iff, register?, Option.bind_eq_bind,
    Option.bind_eq_some_iff]
  constructor
  · rintro ⟨r', hname, hr⟩
    by_cases hunused : r' = 8 ∧ options.useGr8 = false
    · rw [if_pos hunused] at hr
      cases hr
    · rw [if_neg hunused] at hr
      cases hr
      exact ⟨hname, fun height => Bool.of_not_eq_false fun hno => hunused ⟨height, hno⟩⟩
  · rintro ⟨hname, huse⟩
    exact ⟨r, hname, if_neg fun h => Bool.false_ne_true (h.2.symm.trans (huse h.1))⟩

theorem indexRegister_eq_ok_iff : Pass.indexRegister options (some text) = .ok x ↔
    Pass.register options text = .ok x ∧ x ≠ 0 := by
  simp only [Pass.indexRegister, bind_eq_ok]
  constructor
  · rintro ⟨x', hread, hx⟩
    by_cases hzero : x' = 0
    · rw [if_pos hzero] at hx
      cases hx
    · rw [if_neg hzero] at hx
      cases hx
      exact ⟨hread, hzero⟩
  · rintro ⟨hread, hzero⟩
    exact ⟨x, hread, if_neg hzero⟩

theorem index?_eq_some_iff {index : Option String} : index? options index = some x ↔
    Pass.indexRegister options index = .ok x := by
  cases index with
  | none => simp [index?, Pass.indexRegister]
  | some text => simp [index?, indexRegister_eq_ok_iff, register?_eq_some_iff]

end names

theorem lookup_operationNames (name : String) :
    operationNames.lookup name = Operation.ofName? name := by
  have hmnemonics (ms : List Mnemonic) :
      (ms.find? (·.name == name)).map Operation.machine =
        (ms.map fun m => (m.name, Operation.machine m)).lookup name := by
    induction ms with
    | nil => rfl
    | cons m rest ih =>
      rw [List.map_cons, List.lookup_cons, List.find?_cons, ← ih, BEq.comm (a := name)]
      cases m.name == name <;> rfl
  have hall : operationNames = [("DS", .space), ("DC", .constants), ("IN", .transfer svcInput),
      ("OUT", .transfer svcOutput), ("RPUSH", .save), ("RPOP", .restore)] ++
      Mnemonic.all.map fun m => (m.name, Operation.machine m) := rfl
  unfold Operation.ofName?
  split
  case h_7 hds hdc hin hout hpush hpop =>
    rw [Mnemonic.ofName?, hmnemonics, hall]
    simp [List.lookup_cons, beq_eq_false_iff_ne.mpr hds, beq_eq_false_iff_ne.mpr hdc,
      beq_eq_false_iff_ne.mpr hin, beq_eq_false_iff_ne.mpr hout, beq_eq_false_iff_ne.mpr hpush,
      beq_eq_false_iff_ne.mpr hpop]
  all_goals rfl

namespace SymbolicInstruction

variable {options : AssemblyOptions} {m : Mnemonic} {i : SymbolicInstruction}

/-- What an instruction is read as, for each way in which its operands may be given. Of two operands
the second is a register where a register may stand and it looks like one. -/
inductive Reads (options : AssemblyOptions) (m : Mnemonic) :
    List String → SymbolicInstruction → Prop
  | empty (hform : m.form = .empty) : Reads options m [] ⟨m, 0, 0, none⟩
  | register {text : String} {r : RegisterField} (hform : m.form = .register)
      (hr : register? options text = some r) : Reads options m [text] ⟨m, r, 0, none⟩
  | registers {text₁ text₂ : String} {r x : RegisterField}
      (hform : m.form = .registerAddressOrRegister)
      (hlike : looksLikeRegister text₂.toList = true) (hr : register? options text₁ = some r)
      (hx : register? options text₂ = some x) : Reads options m [text₁, text₂] ⟨m, r, x, none⟩
  | registerAddress {text adr : String} {r x : RegisterField} {cell : Cell}
      (index : Option String) (hform : m.form = .registerAddress)
      (hr : register? options text = some r) (hadr : addressOperand adr.toList = .ok cell)
      (hx : index? options index = some x) :
      Reads options m (text :: adr :: index.toList) ⟨m, r, x, some cell⟩
  | registerOrAddress {text adr : String} {r x : RegisterField} {cell : Cell}
      (index : Option String) (hform : m.form = .registerAddressOrRegister)
      (hlike : index = none → looksLikeRegister adr.toList = false)
      (hr : register? options text = some r) (hadr : addressOperand adr.toList = .ok cell)
      (hx : index? options index = some x) :
      Reads options m (text :: adr :: index.toList) ⟨m, r, x, some cell⟩
  | address {adr : String} {x : RegisterField} {cell : Cell} (index : Option String)
      (hform : m.form = .address) (hadr : addressOperand adr.toList = .ok cell)
      (hx : index? options index = some x) :
      Reads options m (adr :: index.toList) ⟨m, 0, x, some cell⟩

theorem readAddressed?_eq_some_iff {r : RegisterField} {adr : String} {index : Option String} :
    readAddressed? options m r adr index = some i ↔ ∃ x cell, index? options index = some x ∧
      addressOperand adr.toList = .ok cell ∧ i = ⟨m, r, x, some cell⟩ := by
  simp only [readAddressed?, Option.bind_eq_bind, Option.bind_eq_some_iff, toOption_eq_some,
    Option.pure_def, Option.some.injEq, exists_and_left, eq_comm (b := i)]

theorem reads_of_read? {operands : List String} (h : read? options m operands = some i) :
    Reads options m operands i := by
  cases hform : m.form with
  | empty =>
    match operands with
    | [] =>
      simp only [read?, hform, Option.some.injEq] at h
      exact h ▸ .empty hform
    | _ :: _ => simp [read?, hform] at h
  | register =>
    match operands with
    | [text] =>
      simp only [read?, hform] at h
      obtain ⟨r, hr, hi⟩ := Option.bind_eq_some_iff.mp h
      cases hi
      exact .register hform hr
    | [] | _ :: _ :: _ => simp [read?, hform] at h
  | registerAddress =>
    match operands with
    | [text, adr] =>
      simp only [read?, hform] at h
      obtain ⟨r, hr, hi⟩ := Option.bind_eq_some_iff.mp h
      obtain ⟨x, cell, hx, hadr, rfl⟩ := readAddressed?_eq_some_iff.mp hi
      exact .registerAddress none hform hr hadr hx
    | [text, adr, index] =>
      simp only [read?, hform] at h
      obtain ⟨r, hr, hi⟩ := Option.bind_eq_some_iff.mp h
      obtain ⟨x, cell, hx, hadr, rfl⟩ := readAddressed?_eq_some_iff.mp hi
      exact .registerAddress (some index) hform hr hadr hx
    | [] | [_] | _ :: _ :: _ :: _ :: _ => simp [read?, hform] at h
  | registerAddressOrRegister =>
    match operands with
    | [text, second] =>
      simp only [read?, hform] at h
      obtain ⟨r, hr, hi⟩ := Option.bind_eq_some_iff.mp h
      by_cases hlike : looksLikeRegister second.toList = true
      · rw [if_pos hlike] at hi
        obtain ⟨x, hx, hi⟩ := Option.bind_eq_some_iff.mp hi
        cases hi
        exact .registers hform hlike hr hx
      · rw [if_neg hlike] at hi
        obtain ⟨x, cell, hx, hadr, rfl⟩ := readAddressed?_eq_some_iff.mp hi
        exact .registerOrAddress none hform (fun _ => Bool.eq_false_iff.mpr hlike) hr hadr hx
    | [text, adr, index] =>
      simp only [read?, hform] at h
      obtain ⟨r, hr, hi⟩ := Option.bind_eq_some_iff.mp h
      obtain ⟨x, cell, hx, hadr, rfl⟩ := readAddressed?_eq_some_iff.mp hi
      exact .registerOrAddress (some index) hform nofun hr hadr hx
    | [] | [_] | _ :: _ :: _ :: _ :: _ => simp [read?, hform] at h
  | address =>
    match operands with
    | [adr] =>
      simp only [read?, hform] at h
      obtain ⟨x, cell, hx, hadr, rfl⟩ := readAddressed?_eq_some_iff.mp h
      exact .address none hform hadr hx
    | [adr, index] =>
      simp only [read?, hform] at h
      obtain ⟨x, cell, hx, hadr, rfl⟩ := readAddressed?_eq_some_iff.mp h
      exact .address (some index) hform hadr hx
    | [] | _ :: _ :: _ :: _ => simp [read?, hform] at h

theorem Reads.read?_eq {operands : List String} (h : Reads options m operands i) :
    read? options m operands = some i := by
  have haddressed {r x : RegisterField} {adr : String} {index : Option String} {cell : Cell}
      (hx : index? options index = some x) (hadr : addressOperand adr.toList = .ok cell) :
      readAddressed? options m r adr index = some ⟨m, r, x, some cell⟩ :=
    readAddressed?_eq_some_iff.mpr ⟨x, cell, hx, hadr, rfl⟩
  cases h with
  | empty hform => simp only [read?, hform]
  | register hform hr => simp [read?, hform, hr]
  | registers hform hlike hr hx => simp [read?, hform, hlike, hr, hx]
  | registerAddress index hform hr hadr hx =>
    cases index with
    | none | some => simp [read?, hform, hr, haddressed hx hadr]
  | registerOrAddress index hform hlike hr hadr hx =>
    cases index with
    | none => simp [read?, hform, hlike, hr, haddressed hx hadr]
    | some => simp [read?, hform, hr, haddressed hx hadr]
  | address index hform hadr hx =>
    cases index with
    | none | some => simp [read?, hform, haddressed hx hadr]

theorem read?_eq_some_iff {operands : List String} :
    read? options m operands = some i ↔ Reads options m operands i :=
  ⟨reads_of_read?, Reads.read?_eq⟩

end SymbolicInstruction

namespace Content

open SymbolicInstruction

/-- What a statement is read as, for each operation that it may have. -/
inductive Reads (options : AssemblyOptions) : Operation → List String → Content → Prop
  | space {text : String} {size : Nat} (hsize : Text.unsigned? 10 0x10000 text.toList = some size) :
      Reads options .space [text] (.data (.replicate size (.value 0)))
  | constants {operands : List String} {cells : List Cell} (hsome : operands ≠ [])
      (hcells : Pass.constants operands = .ok cells) :
      Reads options .constants operands (.data cells)
  | transfer {service : Word} {buffer length : String} {b l : Cell}
      (hbuffer : addressOperand buffer.toList = .ok b)
      (hlength : addressOperand length.toList = .ok l) :
      Reads options (.transfer service) [buffer, length]
        (.code (SymbolicInstruction.transfer service b l))
  | save : Reads options .save [] (.code (Pass.savedRegisters.map SymbolicInstruction.save))
  | restore : Reads options .restore []
      (.code (Pass.savedRegisters.reverse.map SymbolicInstruction.restore))
  | machine {m : Mnemonic} {operands : List String} {i : SymbolicInstruction}
      (hi : SymbolicInstruction.Reads options m operands i) :
      Reads options (.machine m) operands (.code [i])

theorem read?_eq_some_iff {options : AssemblyOptions} {name : String} {operands : List String}
    {content : Content} : read? options name operands = some content ↔
      ∃ operation, Operation.ofName? name = some operation ∧
        Reads options operation operands content := by
  rw [read?, lookup_operationNames, Option.bind_eq_bind, Option.bind_eq_some_iff]
  refine exists_congr fun operation => and_congr_right fun _ => ?_
  constructor
  · intro h
    match operation, operands with
    | .space, [text] =>
      obtain ⟨size, hsize, hcontent⟩ := Option.bind_eq_some_iff.mp h
      cases hcontent
      exact .space hsize
    | .constants, _ :: _ =>
      obtain ⟨cells, hcells, hcontent⟩ := Option.bind_eq_some_iff.mp h
      cases hcontent
      exact .constants (List.cons_ne_nil _ _) ((toOption_eq_some _ _).mp hcells)
    | .transfer service, [buffer, length] =>
      obtain ⟨b, hbuffer, h⟩ := Option.bind_eq_some_iff.mp h
      obtain ⟨l, hlength, hcontent⟩ := Option.bind_eq_some_iff.mp h
      cases hcontent
      exact .transfer ((toOption_eq_some _ _).mp hbuffer) ((toOption_eq_some _ _).mp hlength)
    | .save, [] =>
      cases h
      exact .save
    | .restore, [] =>
      cases h
      exact .restore
    | .machine m, operands =>
      obtain ⟨i, hi, hcontent⟩ := Option.bind_eq_some_iff.mp h
      cases hcontent
      exact .machine (SymbolicInstruction.reads_of_read? hi)
    | .space, [] | .space, _ :: _ :: _ | .constants, [] | .transfer _, [] | .transfer _, [_]
    | .transfer _, _ :: _ :: _ :: _ | .save, _ :: _ | .restore, _ :: _ => cases h
  · intro h
    cases h with
    | space hsize => simp [hsize]
    | constants hsome hcells =>
      obtain ⟨text, rest, rfl⟩ := List.exists_cons_of_ne_nil hsome
      simp [hcells, Except.toOption]
    | transfer hbuffer hlength => simp [hbuffer, hlength, Except.toOption]
    | save | restore => rfl
    | machine hi => simp [hi.read?_eq]

/-- A content that can be read from some statement. -/
def Readable (options : AssemblyOptions) (content : Content) : Prop :=
  ∃ name operands, read? options name operands = some content

end Content

namespace Row

variable {options : AssemblyOptions} {s : Statement} {text : List Char}

/-- What a statement is read as by its operation code. -/
inductive Reads (options : AssemblyOptions) : Statement → Row → Prop
  | start {name : String} (entryLabel : Option String)
      (hentry : ∀ l ∈ entryLabel, isLabel l.toList = true) :
      Reads options ⟨some name, "START", entryLabel.toList⟩ (.start name entryLabel)
  | body {label : Option String} {opcode : String} {operands : List String} {content : Content}
      (hstart : opcode ≠ "START") (hend : opcode ≠ "END")
      (hcontent : Content.read? options opcode operands = some content) :
      Reads options ⟨label, opcode, operands⟩ (.body label content)
  | finish : Reads options ⟨none, "END", []⟩ .finish

theorem ofStatement?_eq_some_iff {row : Row} :
    ofStatement? options s = some row ↔ Reads options s row := by
  constructor
  · intro h
    obtain ⟨label, opcode, operands⟩ := s
    by_cases hstart : opcode = "START"
    · subst hstart
      match label, operands with
      | some name, [] =>
        cases h
        exact .start none nofun
      | some name, [entry] =>
        by_cases hentry : isLabel entry.toList = true
        · simp only [ofStatement?, if_pos hentry] at h
          cases h
          exact .start (some entry) (by simpa using hentry)
        · simp [ofStatement?, hentry] at h
      | none, _ | some _, _ :: _ :: _ => cases h
    by_cases hend : opcode = "END"
    · subst hend
      by_cases hempty : label = none ∧ operands = []
      · simp only [ofStatement?, if_pos hempty] at h
        obtain ⟨rfl, rfl⟩ := hempty
        cases h
        exact .finish
      · simp [ofStatement?, hempty] at h
    · simp only [ofStatement?, Option.map_eq_some_iff] at h
      obtain ⟨content, hcontent, rfl⟩ := h
      exact .body hstart hend hcontent
  · intro h
    cases h with
    | start entryLabel hentry =>
      cases entryLabel with
      | none => rfl
      | some entry => exact if_pos (hentry entry rfl)
    | body hstart hend hcontent => simp [ofStatement?, hcontent]
    | finish => rfl

theorem ofLine?_eq_some_iff {row : Option Row} : ofLine? options text = some row ↔
    (Statement.ofLine text = .ok none ∧ row = none) ∨
      ∃ s r, Statement.ofLine text = .ok (some s) ∧ row = some r ∧ Reads options s r := by
  unfold ofLine?
  rcases Statement.ofLine text with e | _ | s
  · simp
  · simp [eq_comm]
  · simp [ofStatement?_eq_some_iff, and_comm, eq_comm (b := row)]

theorem exists_statement {row : Row} (h : ofLine? options text = some (some row)) :
    ∃ s, Statement.ofLine text = .ok (some s) ∧ Reads options s row := by
  rcases ofLine?_eq_some_iff.mp h with ⟨-, hblank⟩ | ⟨s, r, hs, hrow, hreads⟩
  · cases hblank
  · obtain rfl := Option.some.inj hrow
    exact ⟨s, hs, hreads⟩

theorem readable_of_ofLine? {label : Option String} {content : Content}
    (h : ofLine? options text = some (some (.body label content))) : content.Readable options := by
  obtain ⟨s, -, hreads⟩ := exists_statement h
  cases hreads with
  | body hstart hend hcontent => exact ⟨_, _, hcontent⟩

theorem exists_row_of_statement {row : Option Row} (hs : Statement.ofLine text = .ok (some s))
    (h : ofLine? options text = some row) : ∃ r, row = some r ∧ Reads options s r := by
  rcases ofLine?_eq_some_iff.mp h with ⟨hblank, -⟩ | ⟨s', r, hs', hrow, hreads⟩
  · rw [hs] at hblank
    cases hblank
  · obtain rfl : s = s' := Option.some.inj (Except.ok.inj (hs.symm.trans hs'))
    exact ⟨r, hrow, hreads⟩

end Row

section listed

variable {options : AssemblyOptions} {opened : Option ListingBlock} {location line : Nat}
  {texts : List (List Char)} {blocks : List ListingBlock}

/-- The blocks that the lines are listed as, where a block may already be open. -/
inductive Lists (options : AssemblyOptions) : Option ListingBlock → (location line : Nat) →
    List (List Char) → List ListingBlock → Prop
  | done {location line : Nat} : Lists options none location line [] []
  | blank {opened : Option ListingBlock} {location line : Nat} {text : List Char}
      {rest : List (List Char)} {blocks : List ListingBlock}
      (hrow : Row.ofLine? options text = some none)
      (hrest : Lists options opened location (line + 1) rest blocks) :
      Lists options opened location line (text :: rest) blocks
  | start {location line : Nat} {text : List Char} {rest : List (List Char)}
      {blocks : List ListingBlock} {name : String} {entryLabel : Option String}
      (hrow : Row.ofLine? options text = some (some (.start name entryLabel)))
      (hrest : Lists options (some ⟨name, entryLabel, location, []⟩) location (line + 1) rest
        blocks) : Lists options none location line (text :: rest) blocks
  | body {b : ListingBlock} {location line : Nat} {text : List Char} {rest : List (List Char)}
      {blocks : List ListingBlock} {label : Option String} {content : Content}
      (hrow : Row.ofLine? options text = some (some (.body label content)))
      (hrest : Lists options (some (b.addLine ⟨line, location, label, content⟩))
        (location + content.cells.length) (line + 1) rest blocks) :
      Lists options (some b) location line (text :: rest) blocks
  | finish {b : ListingBlock} {location line : Nat} {text : List Char} {rest : List (List Char)}
      {blocks : List ListingBlock} (hrow : Row.ofLine? options text = some (some .finish))
      (hrest : Lists options none (location + b.literals.flatten.length) (line + 1) rest blocks) :
      Lists options (some b) location line (text :: rest) (b :: blocks)

theorem Lists.listFrom_eq (h : Lists options opened location line texts blocks) :
    listFrom options opened location line texts = some blocks := by
  induction h with
  | done => rfl
  | blank hrow _ ih | start hrow _ ih | body hrow _ ih => simp [listFrom, hrow, ih]
  | finish hrow _ ih =>
    simp only [listFrom, hrow, Option.bind_eq_bind, Option.bind_some, ih]
    rfl

theorem lists_of_listFrom (h : listFrom options opened location line texts = some blocks) :
    Lists options opened location line texts blocks := by
  induction texts generalizing opened location line blocks with
  | nil =>
    cases opened with
    | none =>
      cases h
      exact .done
    | some b => cases h
  | cons text rest ih =>
    obtain ⟨row, hrow, hlisted⟩ := Option.bind_eq_some_iff.mp h
    match row, opened with
    | none, _ => exact .blank hrow (ih hlisted)
    | some (.start name entryLabel), none => exact .start hrow (ih hlisted)
    | some (.body label content), some b => exact .body hrow (ih hlisted)
    | some .finish, some b =>
      obtain ⟨behind, hbehind, hblocks⟩ := Option.bind_eq_some_iff.mp hlisted
      cases hblocks
      exact .finish hrow (ih hbehind)
    | some (.start _ _), some _ | some (.body _ _), none | some .finish, none => cases hlisted

theorem listFrom_eq_some_iff : listFrom options opened location line texts = some blocks ↔
    Lists options opened location line texts blocks :=
  ⟨lists_of_listFrom, Lists.listFrom_eq⟩

end listed

end Assembly

end Comet
