import Comet.Proofs.Assembly.Accepted

namespace Comet.Assembly

/-- The address at which execution of a block starts, if its entry label is defined. -/
def Block.entry? (b : Block) (globals : Symbols) : Option Word :=
  match b.entryLabel with
  | none => some b.origin
  | some name => b.resolve globals name

/-- What a label on a line of the block does to the tables of labels. -/
inductive Layout.Defines (options : AssemblyOptions) (s : Layout) (b : Block) :
    Option String → Symbols → Symbols → Prop
  | none : Defines options s b none b.labels s.globals
  | own {name : String} {labels : Symbols} (hscope : options.labelScope = true)
      (hfree : s.location < memorySize)
      (hlabels : b.labels.define name (.ofNat s.location) = .ok labels) :
      Defines options s b (some name) labels s.globals
  | shared {name : String} {globals : Symbols} (hscope : options.labelScope = false)
      (hfree : s.location < memorySize)
      (hglobals : s.globals.define name (.ofNat s.location) = .ok globals) :
      Defines options s b (some name) b.labels globals

/-- The block after a line of the content at the location. -/
def Block.grow (b : Block) (line location : Nat) (content : Content) : Block :=
  let noted := b.note content.cells
  { noted with pieces := noted.pieces ++ (content.pieces line location).toArray }

theorem Block.grow_eq (b : Block) (line location : Nat) (content : Content) :
    b.grow line location content = { b with
      literals := (b.note content.cells).literals
      pieces := b.pieces ++ (content.pieces line location).toArray } := by
  unfold grow
  rw [Block.note_eq b]

theorem Layout.put_note {s : Layout} {b : Block} {content : Content} {line location : Nat}
    (hopened : s.opened = some b) :
    (s.note content.cells).put (content.pieces line s.location) location =
      { s with opened := some (b.grow line s.location content), location } := by
  simp [put, note, hopened, Block.grow]

/-- What an accepted line does to the layout, given what it is for. -/
inductive Layout.Takes (options : AssemblyOptions) (line : Nat) (s : Layout) :
    Option Row → Layout → Prop
  | blank : Takes options line s none s
  | start (name : String) (entryLabel : Option String) (hopened : s.opened = none)
      (hfree : s.location < memorySize) :
      Takes options line s (some (.start name entryLabel)) { s with
        opened := some { name, startLine := line, origin := .ofNat s.location, entryLabel }
        started := true }
  | body (b : Block) (label : Option String) (content : Content) (labels globals : Symbols)
      (hopened : s.opened = some b) (hdefines : s.Defines options b label labels globals)
      (htiles : Tiles s.location ((content.pieces line s.location).map Piece.extent)
        (s.location + content.cells.length)) :
      Takes options line s (some (.body label content)) { s with
        globals
        opened := some (Block.grow { b with labels } line s.location content)
        location := s.location + content.cells.length }
  | finish (b : Block) (entry : Word) (globals : Symbols) (hopened : s.opened = some b)
      (hentry : b.entry? s.globals = some entry)
      (hglobals : s.globals.define b.name entry = .ok globals)
      (htiles : Tiles s.location ((placePool s.location b.literals).map literalExtent)
        (s.location + b.literals.flatten.length)) :
      Takes options line s (some .finish) { s with
        globals
        opened := none
        closed := s.closed.push { b with entry, pool := placePool s.location b.literals }
        location := s.location + b.literals.flatten.length }

namespace Pass

variable {options : AssemblyOptions} {line : Nat} {s s' : Layout}

theorem accepts_defineLabel {b : Block} {name : String} {u : Unit} (hopened : s.opened = some b)
    (h : Accepts (defineLabel options name) s u s') :
    ∃ labels globals, s.Defines options b (some name) labels globals ∧
      s' = { s with globals, opened := some { b with labels } } := by
  simp only [defineLabel, accepts_bind, accepts_here, accepts_get] at h
  obtain ⟨address, t, ⟨hfree, rfl, rfl⟩, _, _, ⟨rfl, rfl⟩, h⟩ := h
  cases hscope : options.labelScope with
  | true =>
    simp only [hscope, hopened, accepts_bind, accepts_ofExcept, accepts_set] at h
    obtain ⟨labels, _, ⟨hlabels, rfl⟩, rfl⟩ := h
    exact ⟨labels, _, .own hscope hfree hlabels, rfl⟩
  | false =>
    simp only [hscope, accepts_bind, accepts_ofExcept, accepts_set] at h
    obtain ⟨globals, _, ⟨hglobals, rfl⟩, rfl⟩ := h
    refine ⟨b.labels, globals, .shared hscope hfree hglobals, ?_⟩
    rw [hopened]

theorem accepts_start {label : Option String} {operands : List String} {u : Unit}
    (h : Accepts (start line label operands) s u s') :
    ∃ name entryLabel, Row.Reads options ⟨label, "START", operands⟩ (.start name entryLabel) ∧
      s.Takes options line (some (.start name entryLabel)) s' := by
  unfold start at h
  rw [accepts_get_bind] at h
  cases hopened : s.opened with
  | some b => simp [hopened] at h
  | none =>
    have htakes {name : String} {entryLabel : Option String} (h : Accepts (do
          let origin ← here
          modify fun s => { s with
            opened := some { name, startLine := line, origin, entryLabel }, started := true })
          s u s') : s.Takes options line (some (.start name entryLabel)) s' := by
      simp only [accepts_bind, accepts_here, accepts_modify] at h
      obtain ⟨_, _, ⟨hfree, rfl, rfl⟩, rfl⟩ := h
      exact .start name entryLabel hopened hfree
    simp only [hopened] at h
    cases label with
    | none => simp at h
    | some name =>
      rcases operands with _ | ⟨entry, _ | ⟨second, rest⟩⟩
      · exact ⟨name, none, .start none (by simp), htakes h⟩
      · by_cases hentry : isLabel entry.toList = true
        · simp only [hentry, if_true, pure_bind] at h
          exact ⟨name, some entry, .start (some entry) (by simpa using hentry), htakes h⟩
        · simp [hentry] at h
      · simp at h

/-- The end of a block places its literals, and its name gets to stand for its entry. -/
theorem accepts_finish {label : Option String} {operands : List String} {u : Unit}
    (h : Accepts (finish label operands) s u s') :
    Row.Reads options ⟨label, "END", operands⟩ .finish ∧
      s.Takes options line (some .finish) s' := by
  unfold finish at h
  rw [accepts_get_bind] at h
  cases hopened : s.opened with
  | none => simp [hopened] at h
  | some b =>
    simp only [hopened, accepts_bind, accepts_modify] at h
    obtain ⟨_, _, rfl, h⟩ := h
    have hbare : label = none ∧ operands = [] := by
      cases label with
      | some => simp at h
      | none =>
        cases operands with
        | nil => exact ⟨rfl, rfl⟩
        | cons => simp at h
    obtain ⟨rfl, rfl⟩ := hbare
    refine ⟨.finish, ?_⟩
    simp only [Option.isSome_none, Bool.false_eq_true, if_false, List.isEmpty_nil, if_true] at h
    obtain ⟨pool, t, hpool, h⟩ := (accepts_bind _ _ _).mp h
    obtain ⟨rfl, htiles, ht⟩ := accepts_placeLiterals hpool
    rw [accepts_get_bind] at h
    have hentry : ∃ entry, b.entry? s.globals = some entry ∧
        Accepts (do
          let globals ← ofExcept (t.globals.define b.name entry)
          set { t with
            globals, closed := t.closed.push
              { b with entry, pool := placePool s.location b.literals } }) t u s' := by
      have hglobals : t.globals = s.globals := by rw [ht]
      rw [← hglobals]
      unfold Block.entry?
      cases hlabel : b.entryLabel with
      | none =>
        simp only [hlabel] at h
        exact ⟨b.origin, rfl, by simpa using h⟩
      | some name =>
        simp only [hlabel] at h
        cases hresolve : b.resolve t.globals name with
        | none => simp [hresolve] at h
        | some address => exact ⟨address, hresolve, by simpa [hresolve] using h⟩
    obtain ⟨entry, hentry, h⟩ := hentry
    simp only [accepts_bind, accepts_ofExcept, accepts_set] at h
    obtain ⟨globals, _, ⟨hglobals, rfl⟩, rfl⟩ := h
    rw [ht] at hglobals
    rw [ht]
    exact .finish b entry globals hopened hentry hglobals htiles

/-- Looking at a label leaves the layout as it is. -/
theorem accepts_of_labelled {label : Option String} {x : Pass Unit} {u : Unit}
    (h : Accepts (match label with
      | some label =>
        if isLabel label.toList = true then x
        else (throw (.invalidLabel label) : Pass PUnit) >>= fun _ => x
      | _ => x) s u s') : Accepts x s u s' := by
  cases label with
  | some l =>
    by_cases hl : isLabel l.toList = true
    · simpa only [hl, if_true] using h
    · simp [hl] at h
  | none => exact h

theorem takes_of_body {label : Option String} {opcode : String} {operands : List String} {u : Unit}
    (h : Accepts (do
      if (← get).opened.isNone then throw (.outsideBlock opcode)
      if let some label := label then defineLabel options label
      operation options line opcode operands) s u s') :
    ∃ content, Content.read? options opcode operands = some content ∧
      s.Takes options line (some (.body label content)) s' := by
  rw [accepts_get_bind] at h
  cases hopened : s.opened with
  | none => simp [hopened] at h
  | some b =>
    simp only [hopened, Option.isNone_some, Bool.false_eq_true, if_false] at h
    cases label with
    | some name =>
      obtain ⟨_, t, hlabel, hoperation⟩ := (accepts_bind _ _ _).mp h
      obtain ⟨labels, globals, hdefines, rfl⟩ := accepts_defineLabel hopened hlabel
      obtain ⟨content, hread, htiles, rfl⟩ := accepts_operation hoperation
      exact ⟨content, hread, .body b _ content labels globals hopened hdefines htiles⟩
    | none =>
      obtain ⟨content, hread, htiles, rfl⟩ := accepts_operation h
      rw [Layout.put_note hopened]
      exact ⟨content, hread, .body b _ content _ _ hopened .none htiles⟩

theorem takes_of_statement {st : Statement} {u : Unit}
    (h : Accepts (statement options line st) s u s') :
    ∃ row, Row.Reads options st row ∧ s.Takes options line (some row) s' := by
  obtain ⟨label, opcode, operands⟩ := st
  unfold statement at h
  by_cases hstart : opcode = "START"
  · subst hstart
    obtain ⟨name, entryLabel, hreads, htakes⟩ := accepts_start (accepts_of_labelled h)
    exact ⟨_, hreads, htakes⟩
  by_cases hend : opcode = "END"
  · subst hend
    obtain ⟨hreads, htakes⟩ := accepts_finish (accepts_of_labelled h)
    exact ⟨_, hreads, htakes⟩
  · simp only at h
    obtain ⟨content, hcontent, htakes⟩ := takes_of_body (accepts_of_labelled h)
    exact ⟨_, .body hstart hend hcontent, htakes⟩

theorem takes_of_sourceLine {text : List Char} {u : Unit}
    (h : Accepts (sourceLine options line text) s u s') :
    ∃ row, Row.ofLine? options text = some row ∧ s.Takes options line row s' := by
  simp only [sourceLine, accepts_bind, accepts_ofExcept] at h
  obtain ⟨st, _, ⟨hread, rfl⟩, h⟩ := h
  cases st with
  | some st =>
    obtain ⟨row, hreads, htakes⟩ := takes_of_statement h
    exact ⟨some row, Row.ofLine?_eq_some_iff.mpr (Or.inr ⟨st, row, hread, rfl, hreads⟩), htakes⟩
  | none =>
    obtain ⟨-, rfl⟩ := (accepts_pure _ _).mp h
    exact ⟨none, Row.ofLine?_eq_some_iff.mpr (Or.inl ⟨hread, rfl⟩), .blank⟩

end Pass

end Comet.Assembly
