import Comet.Proofs.Assembly.InStep

namespace Comet.Assembly

/-- No block is open. -/
inductive Outside (F : Frame) : Tables → Layout → Prop
  | intro (globals : Symbols) (location : Nat) {started : Bool}
      (hstarted : started = !F.blocks.isEmpty) : Outside F
        { globals, locals := F.locals, blocks := F.blocks, groups := F.groups, location,
          diagnostics := F.diagnostics }
        { globals, closed := F.closed, started, location, diagnostics := F.diagnostics }

/-- The tables follow the layout. If nothing was wrong so far, they have all its blocks. -/
inductive Follows (faultless : Prop) (t : Tables) (s : Layout) : Prop
  | outside {F : Frame} (h : Outside F t s) (hsound : faultless → F.Sound)
  | inside {F : Frame} (h : Inside F t s) (hsound : faultless → F.Sound)

/-- A block has ended, and so far these are the groups of its words. -/
inductive Ending (F : Frame) (b : Block) (row : TableBlock) (groups : List Group) :
    Tables → Layout → Prop
  | intro (globals : Symbols) (location : Nat) : Ending F b row groups
      { globals, locals := F.locals ++ [b.labels], blocks := F.blocks ++ [row],
        groups := F.groups ++ groups, location, diagnostics := F.diagnostics }
      { globals, closed := F.closed, started := true, location, diagnostics := F.diagnostics }

/-- The frame behind a block that has ended in whatever way. -/
def Frame.next (F : Frame) (labels : Symbols) (row : TableBlock) (groups : List Group)
    (closed : Array ClosedBlock) : Frame where
  locals := F.locals ++ [labels]
  blocks := F.blocks ++ [row]
  groups := F.groups ++ groups
  closed
  diagnostics := F.diagnostics
  sizes := by simp [F.sizes]

def Frame.report (F : Frame) (line : Nat) (e : SourceError) : Frame :=
  { F with diagnostics := F.diagnostics.push ⟨line, e.message⟩ }

namespace Follows

variable {options : AssemblyOptions} {faultless faultless' : Prop} {line : Nat} {t : Tables}
  {s : Layout} {F : Frame} {b : Block} {row : TableBlock} {groups : List Group}

theorem mono (h : Follows faultless t s) (himp : faultless' → faultless) :
    Follows faultless' t s := by
  cases h with
  | outside h hsound => exact .outside h fun h => hsound (himp h)
  | inside h hsound => exact .inside h fun h => hsound (himp h)

theorem ofEnding (t : Tables) (s : Layout) (h : Ending F b row groups t s) :
    Follows False t s := by
  obtain ⟨globals, location⟩ := h
  exact .outside (F := F.next b.labels row groups F.closed)
    (.intro globals location (by simp [Frame.next])) nofun

/-- The number of the new block is that of its table of labels. -/
theorem start_outside {label : Option String} {operands : List String} :
    InStep (Outside F) (TablePass.start line label operands) (Pass.start line label operands)
      (fun _ _ => Inside F) (Outside F) := by
  rintro _ _ ⟨globals, location, hstarted⟩
  unfold TablePass.start Pass.start
  rw [EStateM.run_bind, EStateM.run_bind]
  simp only [EStateM.run_get]
  cases label with
  | none => exact .refused _ (.intro globals location hstarted)
  | some name =>
    have hrest (entryLabel : Option String) : InStep (Outside F)
        (TablePass.openBlock line name entryLabel)
        (do
          let origin ← Pass.here
          modify fun s => { s with
            opened := some { name, startLine := line, origin, entryLabel }, started := true })
        (fun _ _ => Inside F) (Outside F) := by
      rintro _ _ ⟨globals, location, hstarted⟩
      rw [TablePass.openBlock, EStateM.run_bind, EStateM.run_bind, TablePass.run_here,
        Pass.run_here]
      by_cases hfree : location < memorySize
      · simp only [if_pos hfree, EStateM.run_modify, F.sizes]
        have hinside := Within.intro (F := F) (K := fun _ => True) globals
          { name, startLine := line, origin := .ofNat location, entryLabel } [] location .nil
          trivial
        rw [List.append_nil] at hinside
        exact .ok hinside
      · simp only [if_neg hfree]
        exact .refused _ (.intro globals location hstarted)
    rcases operands with _ | ⟨entry, _ | _⟩
    · exact hrest none _ _ (.intro globals location hstarted)
    · simp only [TablePass.entryOperand]
      cases isLabel entry.toList with
      | true => exact hrest (some entry) _ _ (.intro globals location hstarted)
      | false => exact .refused _ (.intro globals location hstarted)
    · exact .refused _ (.intro globals location hstarted)

theorem start_inside {label : Option String} {operands : List String} :
    InStep (Inside F) (TablePass.start line label operands) (Pass.start line label operands)
      (fun _ _ => Inside F) (Inside F) := by
  rintro _ _ ⟨globals, b, pieces, location, hpieces, hliterals⟩
  unfold TablePass.start Pass.start
  rw [EStateM.run_bind, EStateM.run_bind]
  simp only [EStateM.run_get]
  rw [EStateM.run_bind, EStateM.run_bind, TablePass.run_blockAt List.getElem?_concat_length]
  exact .refused _ (.intro globals b pieces location hpieces trivial)

/-- A literal is a group of its own. -/
theorem placeLiteral_inStep (words : List Word) :
    InStep (Ending F b row groups) (TablePass.placeLiteral line F.blocks.length words)
      (Pass.reserve words.length)
      (fun address address' t s => address = address' ∧
        ∃ g, Group.Keeps F.blocks.length g (words, address') ∧ Ending F b row (groups ++ [g]) t s)
      (Follows False) := by
  rintro _ _ ⟨globals, location⟩
  have hending : Ending F b row groups _ _ := .intro globals location
  have hrefused := ofEnding _ _ hending
  rw [TablePass.placeLiteral, EStateM.run_bind, TablePass.run_here, Pass.run_reserve]
  by_cases hfree : location < memorySize
  · simp only [if_pos hfree]
    rw [EStateM.run_bind, TablePass.run_emit, List.length_map]
    by_cases hfits : location < memorySize ∧ location + words.length ≤ memorySize
    · rw [if_pos hfits, if_pos hfits, List.append_assoc]
      exact .ok ⟨rfl, _, ⟨rfl, rfl, rfl, rfl⟩, .intro globals _⟩
    · rw [if_neg hfits, if_neg hfits]
      exact .refused _ hrefused
  · simp only [if_neg hfree, if_neg fun h : _ ∧ _ => hfree h.1]
    exact .refused _ hrefused

/-- The address of each literal is kept with the block. -/
theorem placeLiterals_inStep (literals : List (List Word)) :
    InStep (Ending F b row groups) (TablePass.placeLiterals line F.blocks.length literals)
      (Pass.placeLiterals literals)
      (fun addresses pool t s => addresses = pool.map (·.2) ∧ pool.map (·.1) = literals ∧
        ∃ placed, List.Forall₂ (Group.Keeps F.blocks.length) placed pool ∧
          Ending F b row (groups ++ placed) t s)
      (Follows False) := by
  induction literals generalizing groups with
  | nil => exact .pure fun t s h => ⟨rfl, rfl, [], .nil, by rwa [List.append_nil]⟩
  | cons words rest ih =>
    refine (placeLiteral_inStep words).bind fun address address' => ?_
    rintro t s ⟨rfl, g, hkeeps, hending⟩
    refine (ih.bind fun addresses pool => .pure ?_) t s hending
    rintro t s ⟨rfl, hkeys, placed, hplaced, hending⟩
    rw [List.append_assoc] at hending
    exact ⟨rfl, by rw [List.map_cons, hkeys], g :: placed, .cons hkeeps hplaced, hending⟩

theorem blockAt_ending (t : Tables) (s : Layout) (h : Ending F b row groups t s) :
    ∃ t', (TablePass.blockAt F.blocks.length).run t = .ok row t' ∧ Ending F b row groups t' s := by
  obtain ⟨globals, location⟩ := h
  exact ⟨_, TablePass.run_blockAt List.getElem?_concat_length, .intro globals location⟩

theorem updateBlock_ending (change : TableBlock → TableBlock) (t : Tables) (s : Layout)
    (h : Ending F b row groups t s) :
    ∃ t', (TablePass.updateBlock F.blocks.length change).run t = .ok () t' ∧
      Ending F b (change row) groups t' s := by
  obtain ⟨globals, location⟩ := h
  refine ⟨_, TablePass.run_updateBlock List.getElem?_concat_length change, ?_⟩
  rw [set_concat_length]
  exact .intro globals location

theorem sound_next (hF : F.Sound) {pieces placed : List Group} {entry : Word}
    {pool : List (List Word × Word)}
    (hpieces : List.Forall₂ (Group.Puts F.blocks.length b.literals) pieces b.pieces.toList)
    (hplaced : List.Forall₂ (Group.Keeps F.blocks.length) placed pool)
    (hpool : pool.map (·.1) = b.literals) :
    (F.next b.labels (ClosedBlock.row { b with entry, pool }) (pieces ++ placed)
      (F.closed.push { b with entry, pool })).Sound := by
  have hlength : F.blocks.length = F.closed.toList.length := by rw [hF.blocks, List.length_map]
  rw [hlength] at hpieces hplaced
  refine ⟨?_, ?_, ?_⟩
  · simp [Frame.next, hF.locals]
  · simp [Frame.next, hF.blocks]
  · show GroupsOf (F.closed.push _).toList _
    rw [Array.toList_push]
    exact .concat hF.groups hpieces hplaced hpool

theorem enterBlock_inStep {pieces placed : List Group} {pool : List (List Word × Word)}
    (hsound : faultless → F.Sound)
    (hpieces : List.Forall₂ (Group.Puts F.blocks.length b.literals) pieces b.pieces.toList)
    (hplaced : List.Forall₂ (Group.Keeps F.blocks.length) placed pool)
    (hpool : pool.map (·.1) = b.literals) (entry : Word)
    (hrow : { row with entry } = ClosedBlock.row { b with entry, pool }) :
    InStep (Ending F b row (pieces ++ placed)) (TablePass.enterBlock F.blocks.length b.name entry)
      (do
        let s ← get
        let globals ← Pass.ofExcept (s.globals.define b.name entry)
        set { s with globals, closed := s.closed.push { b with entry, pool } })
      (fun _ _ => Follows faultless) (Follows False) := by
  refine .ahead (updateBlock_ending _) ?_
  rw [hrow]
  rintro _ _ ⟨globals, location⟩
  rw [EStateM.run_bind, EStateM.run_bind]
  simp only [EStateM.run_get]
  cases globals.define b.name entry with
  | error e =>
    have hending : Ending F b (ClosedBlock.row { b with entry, pool }) (pieces ++ placed) _ _ :=
      .intro globals location
    exact .refused e (ofEnding _ _ hending)
  | ok globals =>
    exact .ok (.outside
      (F := F.next b.labels (ClosedBlock.row { b with entry, pool }) (pieces ++ placed)
        (F.closed.push { b with entry, pool }))
      (.intro globals location (by simp [Frame.next]))
      fun h => sound_next (hsound h) hpieces hplaced hpool)

/-- The entry label has the same address in the tables and in the block. -/
theorem resolve_of_ending (h : Ending F b row groups t s) (name : String) :
    t.resolve F.blocks.length name = b.resolve s.globals name := by
  obtain ⟨globals, location⟩ := h
  rw [Tables.resolve, ← F.sizes, List.getElem?_concat_length]
  rfl

/-- The block is entered at its entry label, or else where it begins. -/
theorem enterBlock_at_entry {pieces placed : List Group} {pool : List (List Word × Word)}
    (hsound : faultless → F.Sound)
    (hpieces : List.Forall₂ (Group.Puts F.blocks.length b.literals) pieces b.pieces.toList)
    (hplaced : List.Forall₂ (Group.Keeps F.blocks.length) placed pool)
    (hpool : pool.map (·.1) = b.literals) (hlabel : row.entryLabel = b.entryLabel)
    (horigin : row.origin = b.origin)
    (hrow : ∀ entry, { row with entry } = ClosedBlock.row { b with entry, pool }) :
    InStep (Ending F b row (pieces ++ placed))
      (TablePass.entryOf F.blocks.length row >>= fun entry =>
        TablePass.enterBlock F.blocks.length b.name entry)
      (do
        let s ← get
        let entry ← match b.entryLabel with
          | none => pure b.origin
          | some name => match b.resolve s.globals name with
            | some address => pure address
            | none => throw (.undefinedLabel name)
        let globals ← Pass.ofExcept (s.globals.define b.name entry)
        set { s with globals, closed := s.closed.push { b with entry, pool } })
      (fun _ _ => Follows faultless) (Follows False) := by
  intro t s hending
  have henter (entry : Word) :=
    enterBlock_inStep hsound hpieces hplaced hpool entry (hrow entry) t s hending
  rw [EStateM.run_bind, TablePass.run_entryOf, hlabel, horigin, EStateM.run_bind]
  simp only [EStateM.run_get, resolve_of_ending hending]
  cases b.entryLabel with
  | none => exact henter b.origin
  | some name =>
    simp only
    cases b.resolve s.globals name with
    | none => exact .refused _ (ofEnding t s hending)
    | some entry => exact henter entry

theorem closeBlock_inStep {pieces : List Group} (hsound : faultless → F.Sound)
    (hpieces : List.Forall₂ (Group.Puts F.blocks.length b.literals) pieces b.pieces.toList) :
    InStep (Ending F b b.row pieces) (TablePass.closeBlock line F.blocks.length)
      (do
        let pool ← Pass.placeLiterals b.literals
        let s ← get
        let entry ← match b.entryLabel with
          | none => pure b.origin
          | some name => match b.resolve s.globals name with
            | some address => pure address
            | none => throw (.undefinedLabel name)
        let globals ← Pass.ofExcept (s.globals.define b.name entry)
        set { s with globals, closed := s.closed.push { b with entry, pool } })
      (fun _ _ => Follows faultless) (Follows False) := by
  refine .ahead blockAt_ending <| .ahead (updateBlock_ending _) <|
    (placeLiterals_inStep b.literals).bind fun addresses pool => ?_
  rintro t s ⟨rfl, hpool, placed, hkeeps, hplaced⟩
  exact InStep.ahead (updateBlock_ending _) (.ahead blockAt_ending <|
    enterBlock_at_entry hsound hpieces hkeeps hpool rfl rfl fun _ => rfl) t s hplaced

theorem finish_inside {label : Option String} {operands : List String}
    (hsound : faultless → F.Sound) :
    InStep (Inside F) (TablePass.finish line label operands) (Pass.finish label operands)
      (fun _ _ => Follows faultless) (Follows False) := by
  rintro _ _ ⟨globals, b, pieces, location, hpieces, -⟩
  have hending : Ending F b b.row pieces _ _ := .intro globals location
  unfold TablePass.finish Pass.finish
  rw [EStateM.run_bind, EStateM.run_bind]
  simp only [EStateM.run_get]
  rw [EStateM.run_bind, EStateM.run_bind]
  simp only [EStateM.run_modify]
  cases label with
  | some name => exact .refused _ (ofEnding _ _ hending)
  | none =>
    cases operands with
    | cons _ _ => exact .refused _ (ofEnding _ _ hending)
    | nil => exact closeBlock_inStep hsound hpieces _ _ hending

theorem start_inStep {label : Option String} {operands : List String} :
    InStep (Follows faultless) (TablePass.start line label operands)
      (Pass.start line label operands) (fun _ _ => Follows faultless) (Follows False) := by
  rintro t s (⟨h, hsound⟩ | ⟨h, hsound⟩)
  · exact start_outside.mono (fun _ _ h => h) (fun _ _ _ _ h => .inside h hsound)
      (fun _ _ h => .outside h nofun) t s h
  · exact start_inside.mono (fun _ _ h => h) (fun _ _ _ _ h => .inside h hsound)
      (fun _ _ h => .inside h nofun) t s h

theorem finish_inStep {label : Option String} {operands : List String} :
    InStep (Follows faultless) (TablePass.finish line label operands)
      (Pass.finish label operands) (fun _ _ => Follows faultless) (Follows False) := by
  rintro t s (⟨h, hsound⟩ | ⟨h, hsound⟩)
  · obtain ⟨globals, location, hstarted⟩ := h
    exact .refused _ (.outside (.intro globals location hstarted) nofun)
  · exact finish_inside hsound t s h

theorem body_inside {label : Option String} {name : String} {operands : List String} :
    InStep (Inside F)
      (do
        if let some label := label then TablePass.defineLabel options F.blocks.length label
        TablePass.operation options line F.blocks.length name operands)
      (do
        if let some label := label then Pass.defineLabel options label
        Pass.operation options line name operands)
      (fun _ _ => Inside F) (Inside F) := by
  cases label with
  | none => exact Within.operation_inStep
  | some label => exact Within.defineLabel_inStep.bind fun _ _ => Within.operation_inStep

theorem body_inStep {label : Option String} {name : String} {operands : List String} :
    InStep (Follows faultless) (TablePass.body options line label name operands)
      (do
        if (← get).opened.isNone then throw (.outsideBlock name)
        if let some label := label then Pass.defineLabel options label
        Pass.operation options line name operands)
      (fun _ _ => Follows faultless) (Follows False) := by
  rintro t s (⟨h, hsound⟩ | ⟨h, hsound⟩)
  · obtain ⟨globals, location, hstarted⟩ := h
    exact .refused _ (.outside (.intro globals location hstarted) nofun)
  · have hdone := (@body_inside options line _ label name operands).mono (fun _ _ h => h)
      (fun _ _ _ _ h => Follows.inside h hsound) (fun _ _ h => Follows.inside h False.elim) t s h
    obtain ⟨globals, b, pieces, location, hpieces, hliterals⟩ := h
    exact hdone

/-- Looking at a label changes neither the tables nor the layout. -/
theorem labelled_inStep {label : Option String} {x : TablePass Unit} {y : Pass Unit}
    (h : InStep (Follows faultless) x y (fun _ _ => Follows faultless) (Follows False)) :
    InStep (Follows faultless)
      (do
        if let some label := label then
          unless isLabel label.toList do TablePass.refuse (.invalidLabel label)
        x)
      (do
        if let some label := label then
          unless isLabel label.toList do throw (.invalidLabel label)
        y)
      (fun _ _ => Follows faultless) (Follows False) := by
  cases label with
  | none => exact h
  | some label =>
    simp only
    cases isLabel label.toList with
    | true => exact h
    | false => exact .refuse_bind fun _ _ h => h.mono False.elim

theorem statement_inStep (st : Statement) :
    InStep (Follows faultless) (TablePass.statement options line st)
      (Pass.statement options line st) (fun _ _ => Follows faultless) (Follows False) := by
  obtain ⟨label, opcode, operands⟩ := st
  refine labelled_inStep ?_
  by_cases hstart : opcode = "START"
  · subst hstart
    exact start_inStep
  · by_cases hend : opcode = "END"
    · subst hend
      exact finish_inStep
    · simp only [if_neg hstart, if_neg hend]
      exact body_inStep

theorem sourceLine_inStep (options : AssemblyOptions) (line : Nat) (text : List Char) :
    InStep (Follows faultless) (TablePass.sourceLine options line text)
      (Pass.sourceLine options line text) (fun _ _ => Follows faultless) (Follows False) := by
  refine (InStep.ofExcept _ fun _ _ h => h.mono False.elim).bind_same fun st => ?_
  cases st with
  | none => exact .pure fun _ _ h => h
  | some st => exact statement_inStep st

/-- A report is made on both sides, after which nothing is known of the blocks that have ended. -/
theorem report (h : Follows faultless t s) (line : Nat) (e : SourceError) :
    Follows ((s.report line e).diagnostics = #[]) (t.report line e) (s.report line e) := by
  have hfaulty : (s.report line e).diagnostics ≠ #[] := by simp [Layout.report]
  cases h with
  | @outside F h =>
    obtain ⟨globals, location, hstarted⟩ := h
    have hreported : Outside (F.report line e) _ _ := .intro globals location hstarted
    exact .outside hreported fun h => absurd h hfaulty
  | @inside F h =>
    obtain ⟨globals, b, pieces, location, hpieces, hliterals⟩ := h
    have hreported : Inside (F.report line e) _ _ :=
      .intro globals b pieces location hpieces hliterals
    exact .inside hreported fun h => absurd h hfaulty

theorem addLine (h : Follows (s.diagnostics = #[]) t s) (options : AssemblyOptions) (line : Nat)
    (text : List Char) : ∃ t', t.addLine options line text = some t' ∧
      Follows ((s.addLine options line text).diagnostics = #[]) t'
        (s.addLine options line text) := by
  have hbefore (h : (s.addLine options line text).diagnostics = #[]) : s.diagnostics = #[] :=
    (Layout.takes_of_addLine h).1
  have hagree := sourceLine_inStep options line text t s h
  unfold Tables.addLine Layout.addLine at *
  generalize (TablePass.sourceLine options line text).run t = rx,
    (Pass.sourceLine options line text).run s = ry at hagree hbefore ⊢
  cases hagree with
  | ok hfollows => exact ⟨_, rfl, hfollows.mono hbefore⟩
  | refused e hfollows => exact ⟨_, rfl, hfollows.report line e⟩

theorem addLines (h : Follows (s.diagnostics = #[]) t s) (options : AssemblyOptions) (line : Nat)
    (texts : List (List Char)) : ∃ t', t.addLines options line texts = some t' ∧
      Follows ((s.addLines options line texts).diagnostics = #[]) t'
        (s.addLines options line texts) := by
  induction texts generalizing t s line with
  | nil => exact ⟨t, rfl, h⟩
  | cons text rest ih =>
    obtain ⟨t', hfirst, hfollows⟩ := h.addLine options line text
    obtain ⟨t'', hrest, hfollows⟩ := ih hfollows (line + 1)
    exact ⟨t'', by rw [Tables.addLines, hfirst]; exact hrest, hfollows⟩

theorem empty : Follows True {} {} :=
  .outside (F := ⟨[], [], [], #[], #[], rfl⟩) (.intro [] 0 rfl) fun _ => ⟨rfl, rfl, .nil⟩

theorem reportOpen (h : Follows (s.diagnostics = #[]) t s) (line : Nat) :
    ∃ t', t.reportOpen line = some t' ∧
      Follows ((match s.opened with
        | some b => s.report line (.missingEnd b.name)
        | none => s).diagnostics = #[]) t'
        (match s.opened with
        | some b => s.report line (.missingEnd b.name)
        | none => s) := by
  have hreported (e : SourceError) := h.report line e
  cases h with
  | outside h hsound =>
    obtain ⟨globals, location, hstarted⟩ := h
    exact ⟨_, rfl, .outside (.intro globals location hstarted) hsound⟩
  | @inside F h hsound =>
    obtain ⟨globals, b, pieces, location, hpieces, hliterals⟩ := h
    have hrow : (F.blocks ++ [b.row])[F.blocks.length]? = some b.row := List.getElem?_concat_length
    refine ⟨_, ?_, hreported (.missingEnd b.name)⟩
    rw [Tables.reportOpen]
    simp only [hrow]
    rfl

theorem started_eq (h : Follows faultless t s) : s.started = !t.blocks.isEmpty := by
  cases h with
  | outside h =>
    obtain ⟨globals, location, hstarted⟩ := h
    exact hstarted
  | inside h =>
    obtain ⟨globals, b, pieces, location, hpieces, hliterals⟩ := h
    simp

theorem diagnostics_eq (h : Follows faultless t s) : t.diagnostics = s.diagnostics := by
  rcases h with ⟨h, -⟩ | ⟨h, -⟩
  · obtain ⟨globals, location, hstarted⟩ := h
    rfl
  · obtain ⟨globals, b, pieces, location, hpieces, hliterals⟩ := h
    rfl

end Follows

/-- No index is out of range, whatever is wrong with the lines. -/
theorem exists_follows_ofLines (options : AssemblyOptions) (texts : List (List Char)) :
    ∃ t, Tables.ofLines options texts = some t ∧
      Follows ((Layout.ofLines options texts).diagnostics = #[]) t
        (Layout.ofLines options texts) := by
  obtain ⟨t₁, hlines, hfollows⟩ := (Follows.empty.mono fun _ => trivial).addLines options 0 texts
  obtain ⟨t₂, hopen, hfollows⟩ := hfollows.reportOpen (texts.length - 1)
  have hstarted := hfollows.started_eq
  have hlaid : Layout.ofLines options texts =
      let s := match (Layout.addLines options {} 0 texts).opened with
        | some b => (Layout.addLines options {} 0 texts).report (texts.length - 1)
          (.missingEnd b.name)
        | none => Layout.addLines options {} 0 texts
      if s.started then s else s.report 0 .noStart := rfl
  have htables : Tables.ofLines options texts =
      some (if t₂.blocks.isEmpty then t₂.report 0 .noStart else t₂) := by
    rw [Tables.ofLines, hlines]
    simp only [Option.bind_eq_bind, Option.bind_some, hopen]
    rfl
  rw [htables, hlaid]
  refine ⟨_, rfl, ?_⟩
  simp only [hstarted]
  cases t₂.blocks.isEmpty with
  | true => exact hfollows.report 0 .noStart
  | false => exact hfollows

end Comet.Assembly
