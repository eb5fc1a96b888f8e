import Comet.Proofs.Assembly.Placement
import Comet.Proofs.Assembly.Printing
import Comet.Proofs.Assembly.TableSteps

namespace Comet.Assembly

open Text

/-- One word for each character of the strings, in their order. -/
def stringWords (strings : List (List Char)) : List Word := strings.flatten.map Word.ofChar

/-- The constants of the strings, each as it is written. -/
def stringStatement (label : Option String) (strings : List (List Char)) : Statement :=
  ⟨label, "DC", strings.map fun s => .ofList (quote s)⟩

/-- A line for the constants of strings, in columns and with whatever may follow a statement. -/
structure StringLine where
  label : Option String
  strings : List (List Char)
  first : Statement.Gap
  second : Statement.Gap
  rest : List Char
  named : ∀ l ∈ label, isLabel l.toList = true
  nonempty : strings ≠ []
  filled : ∀ s ∈ strings, s ≠ []
  trailer : (stringStatement label strings).Trailer rest

namespace StringLine

def statement (l : StringLine) : Statement := stringStatement l.label l.strings

def text (l : StringLine) : List Char := l.statement.print l.first l.second ++ l.rest

def words (l : StringLine) : List Word := stringWords l.strings

def cells (l : StringLine) : List Cell := l.words.map .value

end StringLine

section reading

variable {strings : List (List Char)} {label : Option String}

theorem printable_stringStatement (hlabel : ∀ l ∈ label, isLabel l.toList = true)
    (strings : List (List Char)) : (stringStatement label strings).Printable where
  label l hl := .of_isLabel (hlabel l hl)
  opcode := by
    have hname : isLabel "DC".toList = true := by decide
    exact .of_isLabel hname
  operands := by
    refine List.forall_mem_map.mpr fun s _ => ?_
    rw [String.toList_ofList]
    exact closed_quote (by decide) s
  field := by
    intro hempty
    obtain ⟨s, -, hs⟩ := List.mem_map.mp (hempty ▸ List.mem_singleton_self "")
    have hnil := congrArg String.toList hs
    rw [String.toList_ofList] at hnil
    cases hnil

theorem constant_quote {s : List Char} (h : s ≠ []) :
    constant (quote s) = .ok (s.map fun c => .value (Word.ofChar c)) := by
  obtain ⟨c, cs, rfl⟩ := List.exists_cons_of_ne_nil h
  have hconstant : constant (quote (c :: cs)) = stringConstant (quote (c :: cs)) := rfl
  rw [hconstant, stringConstant, unquote_eq_some_iff.mpr rfl]

theorem mapM_map_eq_ok {ε α β γ : Type} {f : β → Except ε γ} {read : α → β} {g : α → γ}
    {xs : List α} (h : ∀ x ∈ xs, f (read x) = .ok (g x)) :
    (xs.map read).mapM f = .ok (xs.map g) := by
  induction xs with
  | nil => rfl
  | cons x xs ih =>
    obtain ⟨hx, hxs⟩ := List.forall_mem_cons.mp h
    rw [List.map_cons, List.mapM_cons, hx, ih hxs]
    rfl

theorem constants_strings (h : ∀ s ∈ strings, s ≠ []) :
    Pass.constants (stringStatement label strings).operands =
      .ok ((stringWords strings).map .value) := by
  have hparts : (stringStatement label strings).operands.mapM (fun text => constant text.toList) =
      .ok (strings.map fun s => s.map fun c => .value (Word.ofChar c)) := by
    refine mapM_map_eq_ok fun s hs => ?_
    rw [String.toList_ofList]
    exact constant_quote (h s hs)
  have hcells : (strings.map fun s => s.map fun c => Cell.value (Word.ofChar c)).flatten =
      (stringWords strings).map .value := by
    rw [stringWords, List.map_map, List.map_flatten]
    rfl
  rw [Pass.constants, hparts, ← hcells]
  rfl

end reading

/-- A label that can be defined is. -/
theorem Pass.run_defineLabel {options : AssemblyOptions} {s : Layout} {b : Block} {name : String}
    {labels globals : Symbols} (hopened : s.opened = some b)
    (h : s.Defines options b (some name) labels globals) :
    (Pass.defineLabel options name).run s =
      .ok () { s with globals, opened := some { b with labels } } := by
  cases h with
  | own hscope hfree hlabels =>
    simp [defineLabel, run_here, EStateM.run_bind, hfree, hscope, hopened, hlabels, ofExcept]
  | shared hscope hfree hglobals =>
    simp [defineLabel, run_here, EStateM.run_bind, hfree, hscope, hopened, hglobals, ofExcept]

namespace StringLine

variable (l : StringLine) {options : AssemblyOptions} {line : Nat} {s : Layout} {b : Block}
  {labels globals : Symbols}

theorem ofLine_text : Statement.ofLine l.text = .ok (some l.statement) :=
  (printable_stringStatement l.named l.strings).ofLine_print l.first l.second l.trailer

theorem operands_ne_nil : l.statement.operands ≠ [] := fun h =>
  l.nonempty (List.map_eq_nil_iff.mp h)

theorem constants_operands : Pass.constants l.statement.operands = .ok l.cells :=
  constants_strings l.filled

theorem length_cells : l.cells.length = l.words.length := List.length_map _

theorem words_length_pos : 0 < l.words.length := by
  obtain ⟨s, rest, hstrings⟩ := List.exists_cons_of_ne_nil l.nonempty
  have hs := List.length_pos_iff.mpr (l.filled s (hstrings ▸ List.mem_cons_self))
  rw [words, stringWords, hstrings, List.flatten_cons, List.length_map, List.length_append]
  omega

theorem run_operation (t : Layout) :
    (Pass.operation options line "DC" l.statement.operands).run t =
      if t.location + l.words.length ≤ memorySize then
        .ok () (t.put [⟨.ofNat t.location, line, l.cells, false⟩] (t.location + l.words.length))
      else .error .memoryFull t := by
  have hname : Operation.ofName? "DC" = some .constants := rfl
  have hsome : l.statement.operands.isEmpty = false :=
    List.isEmpty_eq_false_iff.mpr l.operands_ne_nil
  have hemit : (Pass.operation options line "DC" l.statement.operands).run t =
      (Pass.emit line false l.cells).run t := by
    unfold Pass.operation
    simp [hname, hsome, l.constants_operands, Pass.ofExcept]
  have hfree : t.location < memorySize ∧ t.location + l.words.length ≤ memorySize ↔
      t.location + l.words.length ≤ memorySize := by
    have hpos := l.words_length_pos
    omega
  rw [hemit, Pass.run_emit, length_cells]
  simp [hfree, Layout.put, Block.addPiece]

theorem run_sourceLine (hopened : s.opened = some b)
    (hdefines : s.Defines options b l.label labels globals) :
    (Pass.sourceLine options line l.text).run s =
      (Pass.operation options line "DC" l.statement.operands).run
        { s with globals, opened := some { b with labels } } := by
  have hstatement : (Pass.sourceLine options line l.text).run s =
      (Pass.statement options line l.statement).run s := by
    rw [Pass.sourceLine, l.ofLine_text]
    rfl
  rw [hstatement]
  unfold Pass.statement
  simp only [statement, stringStatement]
  cases hlabel : l.label with
  | none =>
    rw [hlabel] at hdefines
    cases hdefines
    have hsame : s = { s with opened := some b } := by rw [← hopened]
    refine Eq.trans ?_ (congrArg (Pass.operation options line "DC" _).run hsame)
    simp [EStateM.run_bind, hopened]
  | some name =>
    rw [hlabel] at hdefines
    have hdefined := Pass.run_defineLabel hopened hdefines
    simp [EStateM.run_bind, hopened, l.named name hlabel, hdefined]

/-- In an open block the line is accepted if and only if there is room for its words. Its label has
been defined before, and stays so. -/
theorem addLine_text (hopened : s.opened = some b)
    (hdefines : s.Defines options b l.label labels globals) :
    s.addLine options line l.text =
      if s.location + l.words.length ≤ memorySize then
        Layout.put { s with globals, opened := some { b with labels } }
          [⟨.ofNat s.location, line, l.cells, false⟩] (s.location + l.words.length)
      else
        Layout.report { s with globals, opened := some { b with labels } } line .memoryFull := by
  rw [Layout.addLine, l.run_sourceLine hopened hdefines, l.run_operation]
  by_cases hfits : s.location + l.words.length ≤ memorySize
  · rw [if_pos hfits, if_pos hfits]
  · rw [if_neg hfits, if_neg hfits]

theorem ofLine?_text :
    Row.ofLine? options l.text = some (some (.body l.label (.data l.cells))) := by
  have hread : Content.read? options "DC" l.statement.operands = some (.data l.cells) :=
    Content.read?_eq_some_iff.mpr ⟨_, rfl, .constants l.operands_ne_nil l.constants_operands⟩
  exact Row.ofLine?_eq_some_iff.mpr
    (Or.inr ⟨_, _, l.ofLine_text, rfl, .body (by decide) (by decide) hread⟩)

theorem toNat_words : l.words.map UInt16.toNat = l.strings.flatten.map (·.toNat % 0x10000) := by
  rw [words, stringWords, List.map_map]
  exact List.map_congr_left fun c _ => UInt16.toNat_ofNat'

/-- In the block of the line its words are where the listing has it. -/
theorem exists_words_placed {source : String} {n : Nat}
    (h : (assemble source options).diagnostics = [])
    (hline : (Text.lines source.toList)[n]? = some l.text) :
    ∃ p blocks b a, (assemble source options).program = some p ∧
      Placed source options p.code n l.label (.data l.cells) blocks b a ∧
      (p.code.drop a).take l.words.length = l.words := by
  obtain ⟨p, blocks, b, a, hp, hplaced⟩ := exists_placed h hline l.ofLine?_text
  have hwords := hplaced.words
  rw [Content.cells, l.length_cells, cells, List.forall₂_map_left_iff] at hwords
  have hsame : l.words = (p.code.drop a).take l.words.length := by
    rw [← List.forall₂_eq_eq_eq]
    exact hwords.imp fun _ _ hw => hw.symm
  exact ⟨p, blocks, b, a, hp, hplaced, hsame.symm⟩

end StringLine

/-- Strings survive the way through a source. A text is read as a string just when it is that string
as it is written. A line that has any strings among its constants, none of them empty, is accepted
in an open block as long as there is room, whatever quotes and separators the strings contain and
whatever follows them. It puts one word for each character into memory, in their order, the low
sixteen bits of its code point, and there they are in the program. -/
theorem string_constants_round_trip :
    (∀ t s : List Char, unquote t = some s ↔ t = quote s) ∧
    ∀ l : StringLine,
      l.words.map UInt16.toNat = l.strings.flatten.map (·.toNat % 0x10000) ∧
      (∀ (options : AssemblyOptions) (line : Nat) (s : Layout) (b : Block)
          (labels globals : Symbols), s.opened = some b →
        s.Defines options b l.label labels globals →
        s.addLine options line l.text =
          if s.location + l.words.length ≤ memorySize then
            Layout.put { s with globals, opened := some { b with labels } }
              [⟨.ofNat s.location, line, l.words.map .value, false⟩]
              (s.location + l.words.length)
          else
            Layout.report { s with globals, opened := some { b with labels } } line
              .memoryFull) ∧
      ∀ (source : String) (options : AssemblyOptions) (n : Nat),
        (assemble source options).diagnostics = [] →
        (Text.lines source.toList)[n]? = some l.text →
        ∃ p blocks b a, (assemble source options).program = some p ∧
          Placed source options p.code n l.label (.data (l.words.map .value)) blocks b a ∧
          (p.code.drop a).take l.words.length = l.words := by
  refine ⟨fun t s => unquote_eq_some_iff, fun l => ⟨l.toNat_words, ?_, ?_⟩⟩
  · intro options line s b labels globals hopened hdefines
    exact l.addLine_text hopened hdefines
  · intro source options n h hline
    exact l.exists_words_placed h hline

/-- Strings that begin and end with quotes, with a separator of every kind in them, and a character
beyond sixteen bits. -/
def quotesLine : StringLine where
  label := some "MSG"
  strings := [['\'', ';', ' ', ','], ['é', '😀', '\'']]
  first := .ofChar ' ' (by decide)
  second := .ofChar ' ' (by decide)
  rest := " it's".toList
  named := by
    rintro l ⟨⟩
    decide
  nonempty := List.cons_ne_nil _ _
  filled := by decide
  trailer := .remark (.ofChar ' ' (by decide)) "it's".toList (List.cons_ne_nil _ _)

def quotesSource : String := "MAIN START\nMSG DC '''; ,','é😀''' it's\n RET\n END\n"

/-- The seven characters are seven words of the program. -/
theorem quotes_round_trip :
    unquote "'''; ,'".toList = some ['\'', ';', ' ', ','] ∧
    (∀ (s : Layout) (b : Block), s.opened = some b → b.labels = [] → s.location = 0 →
      (s.addLine {} 1 quotesLine.text).diagnostics = s.diagnostics) ∧
    ∃ p a, (assemble quotesSource {}).program = some p ∧
      ((p.code.drop a).take 7).map UInt16.toNat =
        [0x27, 0x3B, 0x20, 0x2C, 0xE9, 0xF600, 0x27] := by
  obtain ⟨hunquote, hlines⟩ := string_constants_round_trip
  obtain ⟨hnumbers, hlaid, hplaced⟩ := hlines quotesLine
  refine ⟨(hunquote _ _).mpr (by decide), ?_, ?_⟩
  · intro s b hopened hlabels hlocation
    have hdefines : s.Defines {} b (some "MSG") [("MSG", .ofNat s.location)] s.globals :=
      .own rfl (by rw [hlocation]; decide) (by rw [hlabels]; rfl)
    have hfits : s.location + quotesLine.words.length ≤ memorySize := by rw [hlocation]; decide
    rw [hlaid {} 1 s b _ _ hopened hdefines, if_pos hfits]
    rfl
  · have haccepted : (assemble quotesSource {}).diagnostics = [] := by decide +kernel
    have hline : (Text.lines quotesSource.toList)[1]? = some quotesLine.text := by decide +kernel
    obtain ⟨p, blocks, b, a, hp, -, hwords⟩ := hplaced quotesSource {} 1 haccepted hline
    have hcount : quotesLine.words.length = 7 := rfl
    rw [hcount] at hwords
    exact ⟨p, a, hp, by rw [hwords, hnumbers]; rfl⟩

end Comet.Assembly
