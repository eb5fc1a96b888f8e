import Comet.Proofs.Adapter.Framing

namespace Comet.Adapter

/-- A header block: one or more lines that are not blank, and a line that is. -/
structure FieldBlock where
  fields : List HeaderLine
  close : HeaderLine
  nonempty : fields ≠ []
  visible : ∀ l ∈ fields, ¬ l.IsBlank
  closed : close.IsBlank

def FieldBlock.bytes (b : FieldBlock) : List UInt8 :=
  b.fields.flatMap HeaderLine.bytes ++ b.close.bytes

/-- The last field for the length counts, and it has a size. -/
def FieldBlock.Sized (b : FieldBlock) (n : Nat) : Prop :=
  ∃ before l behind, b.fields = before ++ l :: behind ∧ l.HasSize n ∧
    ∀ other ∈ behind, ¬ other.IsLengthField

/-- The length that is known behind the fields. -/
def lengthAfter (length : Option Nat) (fields : List HeaderLine) : Option Nat :=
  fields.foldl (fun length l => l.length?.getD length) length

section fields

variable {fields : List HeaderLine} {length : Option Nat} {n : Nat} {rest : List UInt8}

theorem lengthAfter_eq_some_iff : lengthAfter length fields = some n ↔
    (∃ before l behind, fields = before ++ l :: behind ∧ l.HasSize n ∧
      ∀ other ∈ behind, ¬ other.IsLengthField) ∨
    length = some n ∧ ∀ l ∈ fields, ¬ l.IsLengthField := by
  -- along the fields; the length known so far is what counts if no field behind it does
  induction fields generalizing length with
  | nil => simp [lengthAfter]
  | cons l fields ih =>
    have hfirst : l.length?.getD length = some n ↔
        l.HasSize n ∨ length = some n ∧ ¬ l.IsLengthField := by
      rw [← HeaderLine.length?_eq_size_iff, ← HeaderLine.length?_eq_none_iff]
      cases l.length? <;> simp
    rw [lengthAfter, List.foldl_cons, ← lengthAfter, ih, hfirst]
    constructor
    · rintro (⟨before, l', behind, rfl, hl', hbehind⟩ | ⟨hl | ⟨hlength, hl⟩, hfields⟩)
      · exact Or.inl ⟨l :: before, l', behind, rfl, hl', hbehind⟩
      · exact Or.inl ⟨[], l, fields, rfl, hl, hfields⟩
      · exact Or.inr ⟨hlength, List.forall_mem_cons.mpr ⟨hl, hfields⟩⟩
    · rintro (⟨before, l', behind, hsplit, hl', hbehind⟩ | ⟨hlength, hall⟩)
      · cases before with
        | nil =>
          obtain ⟨rfl, rfl⟩ := List.cons.inj hsplit
          exact Or.inr ⟨Or.inl hl', hbehind⟩
        | cons l'' before =>
          obtain ⟨rfl, rfl⟩ := List.cons.inj hsplit
          exact Or.inl ⟨before, l', behind, rfl, hl', hbehind⟩
      · obtain ⟨hl, hfields⟩ := List.forall_mem_cons.mp hall
        exact Or.inr ⟨Or.inr ⟨hlength, hl⟩, hfields⟩

theorem FieldBlock.sized_iff (b : FieldBlock) : b.Sized n ↔ lengthAfter none b.fields = some n := by
  rw [lengthAfter_eq_some_iff, Sized]
  simp

theorem frameFrom_fields (hvisible : ∀ l ∈ fields, ¬ l.IsBlank) :
    frameFrom length [] (fields.flatMap HeaderLine.bytes ++ rest) =
      frameFrom (lengthAfter length fields) [] rest := by
  induction fields generalizing length with
  | nil => rfl
  | cons l fields ih =>
    obtain ⟨hl, hfields⟩ := List.forall_mem_cons.mp hvisible
    rw [List.flatMap_cons, List.append_assoc, frameFrom_line, headerLine_of_visible hl]
    exact ih hfields

/-- The blank line ends the header if the length is known by then. -/
theorem readFrame_fieldBlock (b : FieldBlock) (rest : List UInt8) :
    readFrame (b.bytes ++ rest) = match lengthAfter none b.fields with
      | some n => takeBody n rest
      | none => readFrame rest := by
  rw [FieldBlock.bytes, List.append_assoc, readFrame, frameFrom_fields b.visible, frameFrom_line,
    headerLine_of_blank b.closed]
  cases lengthAfter none b.fields <;> rfl

theorem FieldBlock.lengthAfter_of_unsized {b : FieldBlock} (h : ∀ n, ¬ b.Sized n) :
    lengthAfter none b.fields = none := by
  rw [Option.eq_none_iff_forall_ne_some]
  exact fun n hn => h n (b.sized_iff.mpr hn)

/-- A last line without a line feed is taken for a header line, and then there is no more input. -/
theorem readFrame_of_oneLine (l : HeaderLine) :
    readFrame (Text.utf8Encode l.text) = .endOfInput := by
  have hgather : frameFrom none [] (Text.utf8Encode l.text ++ []) =
      frameFrom none ((Text.utf8Encode l.text).reverse ++ []) [] :=
    frameFrom_gather (Text.lineFeed_notMem_utf8Encode l.oneLine) []
  rw [List.append_nil, List.append_nil] at hgather
  rw [readFrame, hgather, frameFrom]
  split
  · rfl
  · rw [List.reverse_reverse, headerLine, Text.utf8Decode?_utf8Encode]
    cases hblank : (Text.trimEnd l.text.toList).isEmpty with
    | true => simp only [hblank, if_true]
    | false => simp only [hblank, Bool.false_eq_true, if_false]

end fields

section never

variable {length : Option Nat} {bytes reversed : List UInt8}

theorem headerLine_error {e : StreamError} (h : headerLine length bytes = .error e) :
    e = .notUtf8 := by
  unfold headerLine at h
  split at h
  · exact (Except.error.inj h).symm
  · simp only at h
    split at h
    · split at h <;> cases h
    · cases h

theorem takeBody_ne_missingLength (n : Nat) (bytes : List UInt8) :
    takeBody n bytes ≠ .failed .missingLength := by
  unfold takeBody
  simp only
  split <;> simp

theorem takeBody_ne_endOfInput (n : Nat) (bytes : List UInt8) : takeBody n bytes ≠ .endOfInput := by
  unfold takeBody
  simp only
  split <;> simp

theorem frameFrom_ne_missingLength :
    frameFrom length reversed bytes ≠ .failed .missingLength := by
  have hfailed {length : Option Nat} {bytes : List UInt8} {e : StreamError}
      (herror : headerLine length bytes = .error e) : Frame.failed e ≠ .failed .missingLength := by
    rw [headerLine_error herror]
    simp
  induction bytes generalizing length reversed with
  | nil =>
    cases reversed with
    | nil => simp [frameFrom]
    | cons c reversed =>
      rw [frameFrom_end (List.cons_ne_nil c reversed)]
      cases hline : headerLine length (c :: reversed).reverse with
      | error e => exact hfailed hline
      | ok found =>
        cases found with
        | more length => simp
        | body n => exact takeBody_ne_missingLength n []
  | cons b bytes ih =>
    by_cases hfeed : b = 10
    · subst hfeed
      rw [frameFrom_feed]
      cases hline : headerLine length (10 :: reversed).reverse with
      | error e => exact hfailed hline
      | ok found =>
        cases found with
        | more length => exact ih
        | body n => exact takeBody_ne_missingLength n bytes
    · rw [frameFrom_byte hfeed]
      exact ih

theorem readFrame_ne_missingLength (bytes : List UInt8) :
    readFrame bytes ≠ .failed .missingLength := frameFrom_ne_missingLength

theorem missingLength_notMem_incoming (bytes : List UInt8) :
    Incoming.failed .missingLength ∉ incoming bytes := by
  have hfuel (fuel : Nat) (bytes : List UInt8) :
      Incoming.failed .missingLength ∉ incomingFrom bytes fuel := by
    induction fuel generalizing bytes with
    | zero => exact List.not_mem_nil
    | succ fuel ih =>
      rw [incomingFrom]
      cases hframe : readFrame bytes with
      | endOfInput => exact List.not_mem_nil
      | failed e =>
        intro hmem
        cases List.mem_singleton.mp hmem
        exact readFrame_ne_missingLength bytes hframe
      | body body rest =>
        intro hmem
        rcases List.mem_cons.mp hmem with hbody | hrest
        · rw [Incoming.ofBody] at hbody
          split at hbody <;> cases hbody
        · exact ih rest hrest
  exact hfuel _ bytes

/-- From where the same is read once, the same is read for good. -/
theorem incoming_congr {bytes bytes' : List UInt8} (h : readFrame bytes = readFrame bytes') :
    incoming bytes = incoming bytes' := by
  cases hframe : readFrame bytes' with
  | endOfInput | failed e =>
    rw [hframe] at h
    rw [incoming, incomingFrom, h, incoming, incomingFrom, hframe]
  | body body rest => rw [incoming_of_body (h.trans hframe), incoming_of_body hframe]

end never

/-- The last field for the length decides what a header block leads to. If it has a size, that many
bytes are taken behind the block. If it has none, or there is no such field, then and only then the
block is passed over, and whatever is behind it is read as if the block had not been there. That the
length is missing is reported nowhere in any stream. -/
theorem block_passed_over_iff_unsized (b : FieldBlock) :
    (∀ n, b.Sized n → ∀ rest, readFrame (b.bytes ++ rest) = takeBody n rest) ∧
    ((∀ rest, readFrame (b.bytes ++ rest) = readFrame rest) ↔ ∀ n, ¬ b.Sized n) ∧
    ((∀ n, ¬ b.Sized n) → ∀ rest, incoming (b.bytes ++ rest) = incoming rest) ∧
    ∀ bytes, readFrame bytes ≠ .failed .missingLength ∧
      Incoming.failed .missingLength ∉ incoming bytes := by
  have hsized (n : Nat) (hn : b.Sized n) (rest : List UInt8) :
      readFrame (b.bytes ++ rest) = takeBody n rest := by
    rw [readFrame_fieldBlock, b.sized_iff.mp hn]
  have hpassed (hnone : ∀ n, ¬ b.Sized n) (rest : List UInt8) :
      readFrame (b.bytes ++ rest) = readFrame rest := by
    rw [readFrame_fieldBlock, FieldBlock.lengthAfter_of_unsized hnone]
  refine ⟨hsized, ⟨?_, hpassed⟩, fun hnone rest => incoming_congr (hpassed hnone rest), ?_⟩
  · intro hall n hn
    exact takeBody_ne_endOfInput n [] ((hsized n hn []).symm.trans (hall []))
  · exact fun bytes => ⟨readFrame_ne_missingLength bytes, missingLength_notMem_incoming bytes⟩

theorem lineFeed_notMem_return : '\n' ∉ "\r".toList := by decide

/-- The line that ends the header of a message. -/
def returnLine : HeaderLine := ⟨"\r", lineFeed_notMem_return⟩

theorem isBlank_returnLine : returnLine.IsBlank := isBlank_return

/-- A header that gives the type of its body alone. -/
def typeOnly : FieldBlock where
  fields := [⟨"Content-Type: application/json\r", by decide⟩]
  close := returnLine
  nonempty := List.cons_ne_nil _ _
  visible := List.forall_mem_singleton.mpr
    (HeaderLine.not_isBlank (c := 'C') (by decide) (by decide))
  closed := isBlank_returnLine

theorem typeOnly_unsized : ∀ l ∈ typeOnly.fields, ∀ n, ¬ l.HasSize n := by
  have hnone : ∀ l ∈ typeOnly.fields, l.length? = none := by decide +kernel
  intro l hl n hsize
  exact Option.some_ne_none _ ((HeaderLine.length?_of_hasSize hsize).symm.trans (hnone l hl))

/-- A header with two lengths, the first of which is no number. -/
def lengthTwice : FieldBlock where
  fields := [⟨"Content-Length: two\r", by decide⟩, ⟨"Content-Length: +2\r", by decide⟩]
  close := returnLine
  nonempty := List.cons_ne_nil _ _
  visible := by
    rw [List.forall_mem_cons, List.forall_mem_singleton]
    exact ⟨HeaderLine.not_isBlank (c := 'C') (by decide) (by decide),
      HeaderLine.not_isBlank (c := 'C') (by decide) (by decide)⟩
  closed := isBlank_returnLine

/-- The second of two lengths is taken, and behind a header without a length a frame is read as if
it were the first. -/
theorem frame_read_behind_typeOnly :
    lengthTwice.Sized 2 ∧ (∀ n, ¬ typeOnly.Sized n) ∧
    readFrame (lengthTwice.bytes ++ [0x7b, 0x7d]) = .body [0x7b, 0x7d] [] ∧
    readFrame (typeOnly.bytes ++ emptyBody.bytes) = .body emptyBody.body [] ∧
    incoming (typeOnly.bytes ++ emptyBody.bytes) = incoming emptyBody.bytes := by
  have htwice : lengthTwice.Sized 2 := (FieldBlock.sized_iff _).mpr (by decide +kernel)
  have hnone : ∀ n, ¬ typeOnly.Sized n := by
    rintro n ⟨before, l, behind, hfields, hl, -⟩
    exact typeOnly_unsized l (hfields ▸ List.mem_append_right _ List.mem_cons_self) n hl
  obtain ⟨hsized, -, -, -⟩ := block_passed_over_iff_unsized lengthTwice
  obtain ⟨-, hpassed, hincoming, -⟩ := block_passed_over_iff_unsized typeOnly
  have hbody : readFrame emptyBody.bytes = .body emptyBody.body [] := by
    rw [← readFrame_framed emptyBody [], List.append_nil]
  exact ⟨htwice, hnone, hsized 2 htwice _, (hpassed.mpr hnone _).trans hbody, hincoming hnone _⟩

/-- The line that gives the length of a body, with the two bytes of another body before it. -/
def gluedLength (n : Nat) (fits : n < 0x10000000000000000) : HeaderLine where
  text := "{}" ++ ownLength n
  oneLine := by
    rw [String.toList_append, List.mem_append]
    exact not_or.mpr ⟨by decide, (ownHeader n fits).length.oneLine⟩

/-- The header in front of a body of `n` bytes, glued to another body. -/
def glued (n : Nat) (fits : n < 0x10000000000000000) : FieldBlock where
  fields := [gluedLength n fits]
  close := returnLine
  nonempty := List.cons_ne_nil _ _
  visible := by
    refine List.forall_mem_singleton.mpr (HeaderLine.not_isBlank (c := '{') ?_ (by decide))
    rw [gluedLength, String.toList_append]
    exact List.mem_append_left _ (by decide)
  closed := isBlank_returnLine

theorem bytes_glued (n : Nat) (fits : n < 0x10000000000000000) :
    (glued n fits).bytes = Text.utf8Encode "{}" ++ (ownHeader n fits).bytes := by
  simp [glued, gluedLength, returnLine, ownHeader, FieldBlock.bytes, HeaderBlock.bytes,
    HeaderLine.bytes, Text.utf8Encode_append]

theorem readFrame_glued (n : Nat) (fits : n < 0x10000000000000000) (rest : List UInt8) :
    readFrame (Text.utf8Encode "{}" ++ (ownHeader n fits).bytes ++ rest) = readFrame rest := by
  have hunnamed : ¬ (gluedLength n fits).IsLengthField := by
    rw [HeaderLine.IsLengthField, gluedLength, String.toList_append]
    exact fun hprefix => absurd (List.cons_prefix_cons.mp hprefix).1 (by decide)
  have hlength : lengthAfter none (glued n fits).fields = none := by
    simp [glued, lengthAfter, HeaderLine.length?_eq_none_iff.mpr hunnamed]
  rw [← bytes_glued, readFrame_fieldBlock, hlength]

def threadsRequest : Message := ⟨1, "request", .request "threads" none⟩

def framedThreads : FramedBody :=
  .own (Text.utf8Encode threadsRequest.toJson.text) (by rw [Text.length_utf8Encode]; decide)

/-- A body without a length hides the message behind it: that is read as two header lines, and then
there is no more input. -/
theorem message_hidden_by_missing_length :
    ¬ ∀ (b : FieldBlock) (rest : List UInt8), (∀ l ∈ b.fields, ∀ n, ¬ l.HasSize n) →
      readFrame (b.bytes ++ rest) = .failed .missingLength := by
  intro hreported
  have hhidden : readFrame (typeOnly.bytes ++ (Text.utf8Encode "{}" ++ framedThreads.bytes)) =
      .endOfInput := by
    have hlength : lengthAfter none typeOnly.fields = none := by decide +kernel
    rw [readFrame_fieldBlock, hlength, FramedBody.bytes, ← List.append_assoc]
    exact (readFrame_glued _ _ _).trans (readFrame_of_oneLine ⟨_, by decide +kernel⟩)
  rw [hreported typeOnly _ typeOnly_unsized] at hhidden
  cases hhidden

end Comet.Adapter
