import Comet.Proofs.Assembly.Blocks
import Comet.Proofs.Assembly.TableSteps
import Mathlib.Data.List.Forall2

namespace Comet.Assembly

/-- Both results are answers so related, or both are refusals after which the states are. -/
inductive Agree {α β : Type} (Q : α → β → Tables → Layout → Prop) (E : Tables → Layout → Prop) :
    EStateM.Result Stop Tables α → EStateM.Result SourceError Layout β → Prop
  | ok {a : α} {b : β} {t : Tables} {s : Layout} (h : Q a b t s) : Agree Q E (.ok a t) (.ok b s)
  | refused (e : SourceError) {t : Tables} {s : Layout} (h : E t s) :
      Agree Q E (.error (.refused e) t) (.error e s)

/-- From states so related, the two steps agree. -/
def InStep {α β : Type} (R : Tables → Layout → Prop) (x : TablePass α) (y : Pass β)
    (Q : α → β → Tables → Layout → Prop) (E : Tables → Layout → Prop) : Prop :=
  ∀ t s, R t s → Agree Q E (x.run t) (y.run s)

namespace InStep

variable {α β γ δ : Type} {R R' E E' : Tables → Layout → Prop} {x : TablePass α} {y : Pass β}
  {Q Q' : α → β → Tables → Layout → Prop} {e : SourceError}

theorem mono (h : InStep R x y Q E) (hR : ∀ t s, R' t s → R t s)
    (hQ : ∀ a b t s, Q a b t s → Q' a b t s) (hE : ∀ t s, E t s → E' t s) :
    InStep R' x y Q' E' := by
  intro t s hrel
  have hagree := h t s (hR t s hrel)
  generalize x.run t = rx, y.run s = ry at hagree ⊢
  cases hagree with
  | ok h => exact .ok (hQ _ _ _ _ h)
  | refused e h => exact .refused e (hE _ _ h)

theorem bind {f : α → TablePass γ} {g : β → Pass δ} {P : γ → δ → Tables → Layout → Prop}
    (hx : InStep R x y Q E) (hf : ∀ a b, InStep (Q a b) (f a) (g b) P E) :
    InStep R (x >>= f) (y >>= g) P E := by
  intro t s hrel
  have hfirst := hx t s hrel
  rw [EStateM.run_bind, EStateM.run_bind]
  generalize x.run t = rx, y.run s = ry at hfirst
  cases hfirst with
  | ok h => exact hf _ _ _ _ h
  | refused e h => exact .refused e h

/-- The steps go on with the same answer. -/
theorem bind_same {x : TablePass α} {y : Pass α} {f : α → TablePass γ} {g : α → Pass δ}
    {P : γ → δ → Tables → Layout → Prop}
    (hx : InStep R x y (fun a b t s => b = a ∧ R' t s) E)
    (hf : ∀ a, InStep R' (f a) (g a) P E) : InStep R (x >>= f) (y >>= g) P E := by
  refine hx.bind fun a b => ?_
  rintro t s ⟨rfl, hrel⟩
  exact hf b t s hrel

/-- A step by the tables alone, which is never refused. -/
theorem ahead {f : α → TablePass γ} {z : Pass δ} {P : γ → δ → Tables → Layout → Prop} {a : α}
    (hx : ∀ t s, R t s → ∃ t', x.run t = .ok a t' ∧ R' t' s) (hf : InStep R' (f a) z P E) :
    InStep R (x >>= f) z P E := by
  intro t s hrel
  obtain ⟨t', hrun, hrel'⟩ := hx t s hrel
  rw [EStateM.run_bind, hrun]
  exact hf t' s hrel'

theorem pure {a : α} {b : β} (h : ∀ t s, R t s → Q a b t s) : InStep R (pure a) (pure b) Q E :=
  fun t s hrel => .ok (h t s hrel)

theorem refuse (h : ∀ t s, R t s → E t s) : InStep R (TablePass.refuse e) (throw e) Q E :=
  fun t s hrel => .refused e (h t s hrel)

theorem refuse_bind {f : α → TablePass γ} {g : β → Pass δ} {P : γ → δ → Tables → Layout → Prop}
    (h : ∀ t s, R t s → E t s) :
    InStep R (TablePass.refuse e >>= f) ((throw e : Pass β) >>= g) P E :=
  fun t s hrel => .refused e (h t s hrel)

theorem ofExcept (r : Except SourceError α) (h : ∀ t s, R t s → E t s) :
    InStep R (TablePass.ofExcept r) (Pass.ofExcept r) (fun a b t s => b = a ∧ R t s) E := by
  cases r with
  | ok a => exact .pure fun t s hrel => ⟨rfl, hrel⟩
  | error e => exact .refuse h

/-- Two loops over lists that are related element by element. -/
theorem forM {ι κ : Type} {T : ι → κ → Prop} {xs : List ι} {ys : List κ}
    {f : ι → TablePass PUnit} {g : κ → Pass PUnit} (hxs : List.Forall₂ T xs ys)
    (hf : ∀ i j, T i j → InStep R (f i) (g j) (fun _ _ => R) E) :
    InStep R (xs.forM f) (ys.forM g) (fun _ _ => R) E := by
  induction hxs with
  | nil => exact .pure fun _ _ hrel => hrel
  | cons hfirst _ ih => exact (hf _ _ hfirst).bind fun _ _ => ih

end InStep

/-- What the cell stands for in a block with these literals. -/
inductive IndexedCell.Stands (literals : List (List Word)) : IndexedCell → Cell → Prop
  | value (w : Word) : Stands literals (.value w) (.value w)
  | label (name : String) : Stands literals (.label name) (.label name)
  | literal {index : Nat} {words : List Word} (h : literals[index]? = some words) :
      Stands literals (.literal index) (.literal words)

/-- A literal keeps its number when others are put behind it. -/
theorem IndexedCell.Stands.append {literals : List (List Word)} {c : IndexedCell} {d : Cell}
    (h : c.Stands literals d) (more : List (List Word)) : c.Stands (literals ++ more) d := by
  cases h with
  | value w => exact .value w
  | label name => exact .label name
  | literal h =>
    obtain ⟨hlt, -⟩ := List.getElem?_eq_some_iff.mp h
    exact .literal (by rw [List.getElem?_append_left hlt, h])

theorem IndexedCell.stands_values (literals : List (List Word)) (ws : List Word) :
    List.Forall₂ (Stands literals) (ws.map .value) (ws.map .value) := by
  rw [List.forall₂_map_left_iff, List.forall₂_map_right_iff, List.forall₂_same]
  exact fun w _ => .value w

/-- The group is what the piece is, in the block of this number. -/
structure Group.Puts (block : Nat) (literals : List (List Word)) (g : Group) (piece : Piece) :
    Prop where
  block : g.block = block
  address : g.address = piece.address
  line : g.line = piece.line
  isInstruction : g.isInstruction = piece.isInstruction
  cells : List.Forall₂ (IndexedCell.Stands literals) g.cells piece.cells

/-- The group is a literal of the block of this number, where it has been put. -/
structure Group.Keeps (block : Nat) (g : Group) (literal : List Word × Word) : Prop where
  block : g.block = block
  address : g.address = literal.2
  cells : g.cells = literal.1.map .value
  isInstruction : g.isInstruction = false

theorem Group.Puts.append {block : Nat} {literals : List (List Word)} {g : Group} {piece : Piece}
    (h : g.Puts block literals piece) (more : List (List Word)) :
    g.Puts block (literals ++ more) piece :=
  ⟨h.block, h.address, h.line, h.isInstruction, h.cells.imp fun _ _ hc => hc.append more⟩

/-- The entry of an open block in the table of the blocks. -/
def Block.row (b : Block) : TableBlock where
  name := b.name
  startLine := b.startLine
  origin := b.origin
  entryLabel := b.entryLabel
  entry := b.origin
  literals := b.literals

/-- The literals of a block that has ended are known by their addresses only. -/
def ClosedBlock.row (b : ClosedBlock) : TableBlock :=
  { b.toBlock.row with entry := b.entry, literals := [], literalAddresses := b.pool.map (·.2) }

/-- The groups of blocks that have ended, from the first block on. -/
inductive GroupsOf : List ClosedBlock → List Group → Prop
  | nil : GroupsOf [] []
  | concat {blocks : List ClosedBlock} {groups pieces literals : List Group} {b : ClosedBlock}
      (h : GroupsOf blocks groups)
      (hpieces : List.Forall₂ (Group.Puts blocks.length b.literals) pieces b.pieces.toList)
      (hliterals : List.Forall₂ (Group.Keeps blocks.length) literals b.pool)
      (hpool : b.pool.map (·.1) = b.literals) :
      GroupsOf (blocks ++ [b]) (groups ++ (pieces ++ literals))

theorem set_concat_length {α : Type} (xs : List α) (a b : α) :
    (xs ++ [a]).set xs.length b = xs ++ [b] := by
  simp

/-- What neither an open block nor its END changes. -/
structure Frame where
  locals : List Symbols
  blocks : List TableBlock
  groups : List Group
  closed : Array ClosedBlock
  diagnostics : Array Diagnostic
  sizes : locals.length = blocks.length

/-- The tables have the blocks that have ended, as long as nothing is wrong with any of them. -/
structure Frame.Sound (F : Frame) : Prop where
  locals : F.locals = F.closed.toList.map (·.labels)
  blocks : F.blocks = F.closed.toList.map (·.row)
  groups : GroupsOf F.closed.toList F.groups

/-- A block is open, and its literals are such. -/
inductive Within (F : Frame) (K : List (List Word) → Prop) : Tables → Layout → Prop
  | intro (globals : Symbols) (b : Block) (pieces : List Group) (location : Nat)
      (hpieces : List.Forall₂ (Group.Puts F.blocks.length b.literals) pieces b.pieces.toList)
      (hliterals : K b.literals) :
      Within F K
        { globals, locals := F.locals ++ [b.labels], blocks := F.blocks ++ [b.row],
          current := some F.blocks.length, groups := F.groups ++ pieces, location,
          diagnostics := F.diagnostics }
        { globals, opened := some b, closed := F.closed, started := true, location,
          diagnostics := F.diagnostics }

/-- A block is open, of which nothing more is known. -/
abbrev Inside (F : Frame) : Tables → Layout → Prop := Within F fun _ => True

namespace Within

variable {options : AssemblyOptions} {F : Frame} {K : List (List Word) → Prop} {line : Nat}

theorem forget {K' : List (List Word) → Prop} (hK : ∀ literals, K literals → K' literals)
    (t : Tables) (s : Layout) (h : Within F K t s) : Within F K' t s := by
  obtain ⟨globals, b, pieces, location, hpieces, hliterals⟩ := h
  exact ⟨globals, b, pieces, location, hpieces, hK _ hliterals⟩

theorem inside (t : Tables) (s : Layout) (h : Within F K t s) : Inside F t s :=
  forget (fun _ _ => trivial) t s h

theorem emit_inStep {isInstruction : Bool} {cells : List IndexedCell} {cells' : List Cell}
    (hcells : ∀ literals, K literals →
      List.Forall₂ (IndexedCell.Stands literals) cells cells') :
    InStep (Within F K) (TablePass.emit line F.blocks.length isInstruction cells)
      (Pass.emit line isInstruction cells') (fun _ _ => Within F K) (Inside F) := by
  rintro _ _ ⟨globals, b, pieces, location, hpieces, hliterals⟩
  have hstand := hcells _ hliterals
  rw [TablePass.run_emit, Pass.run_emit, hstand.length_eq]
  split
  · have hnew : List.Forall₂ (Group.Puts F.blocks.length b.literals)
        (pieces ++ [⟨.ofNat location, line, F.blocks.length, cells, isInstruction⟩])
        (b.addPiece ⟨.ofNat location, line, cells', isInstruction⟩).pieces.toList := by
      rw [Block.addPiece, Array.toList_push]
      exact List.rel_append hpieces (.cons ⟨rfl, rfl, rfl, rfl, hstand⟩ .nil)
    rw [List.append_assoc]
    exact .ok (.intro globals (b.addPiece _) _ _ hnew hliterals)
  · exact .refused _ (.intro globals b pieces location hpieces trivial)

theorem literal_inStep {words : List Word} (hK : ∀ literals, K literals → K (literals ++ [words])) :
    InStep (Within F K) (TablePass.literal F.blocks.length words)
      (Pass.modifyBlock (·.addLiteral words))
      (fun index _ => Within F fun literals => K literals ∧ literals[index]? = some words)
      (Inside F) := by
  rintro _ _ ⟨globals, b, pieces, location, hpieces, hliterals⟩
  have hpooled (s : Layout) : (Pass.modifyBlock (·.addLiteral words)).run s =
      .ok () { s with opened := s.opened.map (·.addLiteral words) } := rfl
  rw [TablePass.run_literal List.getElem?_concat_length, hpooled, Option.map_some, Block.addLiteral]
  have hliteralsRow : b.row.literals = b.literals := rfl
  rw [hliteralsRow]
  cases hindex : b.literals.idxOf? words with
  | some index =>
    have hget : b.literals[index]? = some words := by
      obtain ⟨hlt, hsame, -⟩ := List.findIdx?_eq_some_iff_getElem.mp hindex
      exact List.getElem?_eq_some_iff.mpr ⟨hlt, beq_iff_eq.mp hsame⟩
    rw [if_pos (List.mem_of_getElem? hget)]
    exact .ok (.intro globals b pieces location hpieces ⟨hliterals, hget⟩)
  | none =>
    have hnew : words ∉ b.literals := List.idxOf?_eq_none_iff.mp hindex
    rw [if_neg hnew]
    simp only [set_concat_length]
    refine .ok (.intro globals { b with literals := b.literals ++ [words] } pieces location
      (hpieces.imp fun _ _ h => h.append _) ⟨hK _ hliterals, List.getElem?_concat_length⟩)

/-- An address operand has its literal pooled, whatever else stands in the line. -/
theorem address_inStep {text : String}
    (hK : ∀ literals more, K literals → K (literals ++ more)) :
    InStep (Within F K) (TablePass.address F.blocks.length text) (Pass.address text)
      (fun c d => Within F fun literals => K literals ∧ c.Stands literals d) (Inside F) := by
  refine (InStep.ofExcept _ inside).bind_same fun c => ?_
  cases c with
  | value w => exact .pure (forget fun literals h => ⟨h, .value w⟩)
  | label name => exact .pure (forget fun literals h => ⟨h, .label name⟩)
  | literal words =>
    refine (literal_inStep fun literals => hK literals _).bind fun index _ => ?_
    exact .pure (forget fun literals h => ⟨h.1, .literal h.2⟩)

section forms

variable {m : Mnemonic} {r : RegisterField}

/-- The cells on both sides stand for the same. -/
abbrev Words (F : Frame) (cells : List IndexedCell) (cells' : List Cell) :
    Tables → Layout → Prop :=
  Within F fun literals => List.Forall₂ (IndexedCell.Stands literals) cells cells'

theorem words_of_values (F : Frame) (ws : List Word) (t : Tables) (s : Layout) (h : Inside F t s) :
    Words F (ws.map .value) (ws.map .value) t s :=
  forget (fun literals _ => IndexedCell.stands_values literals ws) t s h

theorem addressForm_inStep {adr : String} {index : Option String} :
    InStep (Inside F) (TablePass.addressForm options F.blocks.length m r adr index)
      (Pass.addressForm options m r adr index) (Words F) (Inside F) := by
  unfold TablePass.addressForm
  rw [TablePass.indexRegister_eq]
  refine (InStep.ofExcept _ inside).bind_same fun x => ?_
  refine (address_inStep fun _ _ h => h).bind fun c d => ?_
  exact .pure (forget fun literals h => .cons (.value _) (.cons h.2 .nil))

theorem registerAddressForm_inStep {r adr : String} {index : Option String} :
    InStep (Inside F) (TablePass.registerAddressForm options F.blocks.length m r adr index)
      (Pass.registerAddressForm options m r adr index) (Words F) (Inside F) := by
  unfold TablePass.registerAddressForm
  rw [TablePass.register_eq]
  exact (InStep.ofExcept _ inside).bind_same fun r => addressForm_inStep

theorem registerForm_inStep {r₁ r₂ : String} :
    InStep (Inside F) (TablePass.registerForm options m r₁ r₂) (Pass.registerForm options m r₁ r₂)
      (Words F) (Inside F) := by
  unfold TablePass.registerForm Pass.registerForm
  simp only [TablePass.register_eq]
  cases m.registerOpcode with
  | none => exact .refuse inside
  | some opcode =>
    refine (InStep.ofExcept _ inside).bind_same fun r => ?_
    refine (InStep.ofExcept _ inside).bind_same fun x => ?_
    exact .pure (words_of_values F [Instruction.encode opcode r x])

theorem instruction_inStep {operands : List String} :
    InStep (Inside F) (TablePass.instruction options F.blocks.length m operands)
      (Pass.instruction options m operands) (Words F) (Inside F) := by
  unfold TablePass.instruction Pass.instruction
  cases m.form with
  | empty =>
    match operands with
    | [] => exact .pure (words_of_values F [Instruction.encode m.opcode 0 0])
    | _ :: _ => exact .refuse inside
  | register =>
    match operands with
    | [r] =>
      simp only [TablePass.register_eq]
      refine (InStep.ofExcept _ inside).bind_same fun r => ?_
      exact .pure (words_of_values F [Instruction.encode m.opcode r 0])
    | [] | _ :: _ :: _ => exact .refuse inside
  | registerAddress =>
    match operands with
    | [r, adr] | [r, adr, x] => exact registerAddressForm_inStep
    | [] | [_] | _ :: _ :: _ :: _ :: _ => exact .refuse inside
  | registerAddressOrRegister =>
    match operands with
    | [r, second] =>
      simp only
      split
      · exact registerForm_inStep
      · exact registerAddressForm_inStep
    | [r, adr, x] => exact registerAddressForm_inStep
    | [] | [_] | _ :: _ :: _ :: _ :: _ => exact .refuse inside
  | address =>
    match operands with
    | [adr] | [adr, x] => exact addressForm_inStep
    | [] | _ :: _ :: _ :: _ => exact .refuse inside

end forms

section statements

/-- Constants have no literals, so nothing is pooled for them. -/
theorem mapM_cell {cells : List Cell} (h : ∀ c ∈ cells, c.literal? = none) (block : Nat) :
    ∃ indexed, cells.mapM (TablePass.cell block) = pure indexed ∧
      ∀ literals, List.Forall₂ (IndexedCell.Stands literals) indexed cells := by
  induction cells with
  | nil => exact ⟨[], rfl, fun _ => .nil⟩
  | cons c rest ih =>
    obtain ⟨indexed, hrest, hstand⟩ := ih fun d hd => h d (List.mem_cons_of_mem c hd)
    rw [List.mapM_cons, hrest]
    cases c with
    | value w => exact ⟨.value w :: indexed, rfl, fun ls => .cons (.value w) (hstand ls)⟩
    | label name => exact ⟨.label name :: indexed, rfl, fun ls => .cons (.label name) (hstand ls)⟩
    | literal words => cases h _ List.mem_cons_self

theorem transfer_inStep {buffer length : IndexedCell} {buffer' length' : Cell} (code : Word) :
    InStep
      (Within F fun literals => buffer.Stands literals buffer' ∧ length.Stands literals length')
      ((TablePass.transferCells code buffer length).forM
        (TablePass.emit line F.blocks.length true))
      ((Pass.transferCells code buffer' length').forM (Pass.emit line true))
      (fun _ _ => Inside F) (Inside F) := by
  let K := fun literals => buffer.Stands literals buffer' ∧ length.Stands literals length'
  have hvalues (ws : List Word) (literals : List (List Word)) (_ : K literals) :
      List.Forall₂ (IndexedCell.Stands literals) (ws.map .value) (ws.map .value) :=
    IndexedCell.stands_values literals ws
  have hoperand {c : IndexedCell} {d : Cell} (w : Word) (hc : ∀ literals, K literals →
      c.Stands literals d) (literals : List (List Word)) (h : K literals) :
      List.Forall₂ (IndexedCell.Stands literals) [.value w, c] [.value w, d] :=
    .cons (.value w) (.cons (hc literals h) .nil)
  have hrows : List.Forall₂ (fun cells cells' => ∀ literals, K literals →
        List.Forall₂ (IndexedCell.Stands literals) cells cells')
      (TablePass.transferCells code buffer length) (Pass.transferCells code buffer' length') :=
    .cons (hvalues [_, _]) <| .cons (hvalues [_, _]) <| .cons (hoperand _ fun _ h => h.1) <|
      .cons (hoperand _ fun _ h => h.2) <| .cons (hvalues [_, _]) <| .cons (hvalues [_]) <|
      .cons (hvalues [_]) .nil
  have hall := InStep.forM (R := Within F K) (E := Inside F) hrows
    fun _ _ h => @emit_inStep F K line true _ _ h
  exact hall.mono (fun _ _ h => h) (fun _ _ => inside) (fun _ _ h => h)

/-- The instructions of `RPUSH` and `RPOP`, one for each register. -/
theorem registers_inStep (registers : List RegisterField) (words : RegisterField → List Word) :
    InStep (Inside F)
      (registers.forM fun r => TablePass.emit line F.blocks.length true ((words r).map .value))
      (registers.forM fun r => Pass.emit line true ((words r).map .value))
      (fun _ _ => Inside F) (Inside F) := by
  refine InStep.forM (T := Eq) (List.forall₂_same.mpr fun _ _ => rfl) ?_
  rintro r _ rfl
  exact emit_inStep fun literals _ => IndexedCell.stands_values literals (words r)

theorem operation_inStep {name : String} {operands : List String} :
    InStep (Inside F) (TablePass.operation options line F.blocks.length name operands)
      (Pass.operation options line name operands) (fun _ _ => Inside F) (Inside F) := by
  unfold TablePass.operation Pass.operation
  cases Operation.ofName? name with
  | none => exact .refuse inside
  | some op =>
    cases op with
    | space =>
      rcases operands with _ | ⟨text, _ | _⟩
      · exact .refuse inside
      · simp only
        cases Text.unsigned? 10 0x10000 text.toList with
        | none => exact .refuse inside
        | some size =>
          refine emit_inStep fun literals _ => ?_
          have hzero := IndexedCell.stands_values literals (.replicate size 0)
          rwa [List.map_replicate, List.map_replicate] at hzero
      · exact .refuse inside
    | constants =>
      simp only
      cases operands.isEmpty with
      | true => exact .refuse_bind inside
      | false =>
        cases hconstants : Pass.constants operands with
        | error e => exact .refuse_bind inside
        | ok cells =>
          obtain ⟨indexed, hmap, hstand⟩ :=
            mapM_cell (literal?_of_constants hconstants) F.blocks.length
          simp only [TablePass.ofExcept, Pass.ofExcept, hmap, pure_bind]
          exact emit_inStep fun literals _ => hstand literals
    | transfer code =>
      rcases operands with _ | ⟨buffer, _ | ⟨length, _ | _⟩⟩
      · exact .refuse inside
      · exact .refuse inside
      · refine (address_inStep fun _ _ h => h).bind fun c d => ?_
        have hmono (literals more : List (List Word)) (h : True ∧ c.Stands literals d) :
            True ∧ c.Stands (literals ++ more) d := ⟨trivial, h.2.append more⟩
        refine (address_inStep hmono).bind fun c' d' => ?_
        refine (transfer_inStep code).mono ?_ (fun _ _ _ _ h => h) (fun _ _ h => h)
        exact forget fun literals h => ⟨h.1.2, h.2⟩
      · exact .refuse inside
    | save =>
      simp only
      cases operands.isEmpty with
      | true => exact registers_inStep _ fun r => [Instruction.encode Mnemonic.push.opcode 0 r, 0]
      | false => exact .refuse_bind inside
    | restore =>
      simp only
      cases operands.isEmpty with
      | true => exact registers_inStep _ fun r => [Instruction.encode Mnemonic.pop.opcode r 0]
      | false => exact .refuse_bind inside
    | machine m =>
      exact instruction_inStep.bind fun cells cells' =>
        (emit_inStep fun _ h => h).mono (fun _ _ h => h) (fun _ _ => inside) (fun _ _ h => h)

theorem defineLabel_inStep {name : String} :
    InStep (Inside F) (TablePass.defineLabel options F.blocks.length name)
      (Pass.defineLabel options name) (fun _ _ => Inside F) (Inside F) := by
  have hhere : InStep (Inside F) TablePass.here Pass.here
      (fun w w' t s => w' = w ∧ Inside F t s) (Inside F) := by
    rintro _ _ ⟨globals, b, pieces, location, hpieces, hliterals⟩
    rw [TablePass.run_here, Pass.run_here]
    split
    · exact .ok ⟨rfl, .intro globals b pieces location hpieces hliterals⟩
    · exact .refused _ (.intro globals b pieces location hpieces hliterals)
  refine hhere.bind_same fun address => ?_
  rintro _ _ ⟨globals, b, pieces, location, hpieces, hliterals⟩
  have hlabels : (F.locals ++ [b.labels])[F.blocks.length]? = some b.labels := by
    rw [← F.sizes]
    exact List.getElem?_concat_length
  have hset (labels : Symbols) :
      (F.locals ++ [b.labels]).set F.blocks.length labels = F.locals ++ [labels] := by
    rw [← F.sizes, set_concat_length]
  rw [EStateM.run_bind, EStateM.run_bind]
  simp only [EStateM.run_get, hlabels]
  cases options.labelScope with
  | true =>
    simp only
    cases b.labels.define name address with
    | error e => exact .refused e (.intro globals b pieces location hpieces trivial)
    | ok labels =>
      simp only [TablePass.ofExcept, pure_bind, hset]
      exact .ok (.intro globals { b with labels } pieces location hpieces trivial)
  | false =>
    simp only
    cases globals.define name address with
    | error e => exact .refused e (.intro globals b pieces location hpieces trivial)
    | ok globals => exact .ok (.intro globals b pieces location hpieces trivial)

end statements

end Within

end Comet.Assembly
