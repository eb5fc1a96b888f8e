import Comet.Proofs.Adapter.Envelope
import Comet.Proofs.Text.Encoding

namespace Comet.Adapter

/-- One line of a header, without the line feed at its end. -/
structure HeaderLine where
  text : String
  oneLine : '\n' ∉ text.toList

namespace HeaderLine

def bytes (l : HeaderLine) : List UInt8 := Text.utf8Encode l.text ++ [10]

def IsBlank (l : HeaderLine) : Prop := ∀ c ∈ l.text.toList, Text.isBlank c = true

/-- A field of a header that has nothing to do with the length. -/
structure IsOther (l : HeaderLine) : Prop where
  visible : ¬ l.IsBlank
  unnamed : ¬ lengthHeader.toList <+: l.text.toList

/-- The field that says how many bytes there are, with white space on either side of the number. -/
def GivesLength (n : Nat) (l : HeaderLine) : Prop :=
  ∃ before behind, (∀ c ∈ before ++ behind, Text.isBlank c = true) ∧
    l.text.toList = lengthHeader.toList ++ (before ++ (toString n).toList ++ behind)

/-- The field for the length, whatever its value is. -/
def IsLengthField (l : HeaderLine) : Prop := lengthHeader.toList <+: l.text.toList

/-- The field for the length, with a decimal number of 64 bits: its digits, perhaps with a plus sign
in front of them, and white space on either side. -/
def HasSize (n : Nat) (l : HeaderLine) : Prop :=
  n < 0x10000000000000000 ∧ ∃ before number behind digits,
    (∀ c ∈ before ++ behind, Text.isBlank c = true) ∧ Text.IsDecimal n digits ∧
    (number = digits ∨ number = '+' :: digits) ∧
    l.text.toList = lengthHeader.toList ++ (before ++ number ++ behind)

/-- What the line says about the length, without the white space at its end. -/
def length? (l : HeaderLine) : Option (Option Nat) := lengthOf? (Text.trimEnd l.text.toList)

end HeaderLine

/-- The header of a body of `n` bytes: blank lines, fields, one of which is the length, and a line
that is blank. No body in memory has a length beyond 64 bits. -/
structure HeaderBlock (n : Nat) where
  blanks : List HeaderLine
  before : List HeaderLine
  length : HeaderLine
  behind : List HeaderLine
  close : HeaderLine
  blank : ∀ l ∈ blanks, l.IsBlank
  other : ∀ l ∈ before ++ behind, l.IsOther
  given : length.GivesLength n
  closed : close.IsBlank
  fits : n < 0x10000000000000000

def HeaderBlock.bytes {n : Nat} (b : HeaderBlock n) : List UInt8 :=
  (b.blanks ++ b.before ++ b.length :: (b.behind ++ [b.close])).flatMap HeaderLine.bytes

/-- A body of any bytes behind a header of its own. -/
structure FramedBody where
  body : List UInt8
  header : HeaderBlock body.length

def FramedBody.bytes (f : FramedBody) : List UInt8 := f.header.bytes ++ f.body

/-- Reading one frame after another takes these bodies from a stream and leaves the rest. -/
inductive Takes : List UInt8 → List (List UInt8) → List UInt8 → Prop
  | done (bytes : List UInt8) : Takes bytes [] bytes
  | read {bytes body next rest : List UInt8} {bodies : List (List UInt8)}
      (hframe : readFrame bytes = .body body next) (hrest : Takes next bodies rest) :
      Takes bytes (body :: bodies) rest

section lines

variable {l : HeaderLine} {length : Option Nat} {n : Nat}

theorem utf8Decode?_lineBytes (l : HeaderLine) :
    Text.utf8Decode? l.bytes = some (l.text ++ "\n") := by
  have hfeed : Text.utf8Encode "\n" = [10] := Text.utf8Encode_eq_flatMap "\n"
  rw [HeaderLine.bytes, ← hfeed, ← Text.utf8Encode_append, Text.utf8Decode?_utf8Encode]

theorem trimEnd_line (l : HeaderLine) :
    Text.trimEnd (l.text ++ "\n").toList = Text.trimEnd l.text.toList := by
  have hfeed : ∀ c ∈ ['\n'], Text.isBlank c = true := List.forall_mem_singleton.mpr (by decide)
  rw [String.toList_append]
  exact Text.trimEnd_append_of_blank hfeed

namespace HeaderLine

theorem isPrefixOf_trimEnd (l : HeaderLine) :
    lengthHeader.toList.isPrefixOf (Text.trimEnd l.text.toList) = true ↔ l.IsLengthField := by
  rw [List.isPrefixOf_iff_prefix, Text.prefix_trimEnd_iff (by decide), IsLengthField]

theorem length?_eq_none_iff : l.length? = none ↔ ¬ l.IsLengthField := by
  rw [← isPrefixOf_trimEnd, length?, lengthOf?]
  split <;> simp_all

theorem hasSize_of_length? (h : l.length? = some (some n)) : l.HasSize n := by
  rw [length?, lengthOf?] at h
  by_cases hname : lengthHeader.toList.isPrefixOf (Text.trimEnd l.text.toList) = true
  · rw [if_pos hname] at h
    obtain ⟨value, hvalue⟩ := List.isPrefixOf_iff_prefix.mp hname
    rw [← hvalue, List.drop_left, Option.some.injEq, Text.unsigned?_eq_some_iff] at h
    obtain ⟨hfits, digits, hdigits, hnumber⟩ := h
    obtain ⟨dropped, hdropped, hline⟩ := Text.exists_trimEnd_append l.text.toList
    obtain ⟨before, behind, hblank, hparts⟩ := Text.exists_append_trim value
    obtain ⟨hbefore, hbehind⟩ := List.forall_mem_append.mp hblank
    refine ⟨hfits, before, Text.trim value, behind ++ dropped, digits, ?_, hdigits, hnumber, ?_⟩
    · exact List.forall_mem_append.mpr ⟨hbefore, List.forall_mem_append.mpr ⟨hbehind, hdropped⟩⟩
    · have hgroup : value ++ dropped = before ++ Text.trim value ++ (behind ++ dropped) := by
        rw [← List.append_assoc, ← hparts]
      rw [hline, ← hvalue, List.append_assoc, hgroup]
  · rw [if_neg hname] at h
    cases h

theorem length?_of_hasSize (h : l.HasSize n) : l.length? = some (some n) := by
  obtain ⟨hfits, before, number, behind, digits, hblank, hdigits, hnumber, htext⟩ := h
  obtain ⟨hbefore, hbehind⟩ := List.forall_mem_append.mp hblank
  have hvisible : ∀ c ∈ number, Text.isBlank c = false := by
    have hall : ∀ c ∈ digits, Text.isBlank c = false :=
      fun c hc => Text.isBlank_of_isDigit (hdigits.decimal c hc)
    rcases hnumber with rfl | rfl
    · exact hall
    · exact List.forall_mem_cons.mpr ⟨by decide, hall⟩
  have hne : number ≠ [] := by
    rcases hnumber with rfl | rfl
    · exact hdigits.nonempty
    · exact List.cons_ne_nil _ _
  have htrim : Text.trimEnd l.text.toList = lengthHeader.toList ++ (before ++ number) := by
    rw [htext, ← List.append_assoc, ← List.append_assoc, Text.trimEnd_word hvisible hne hbehind,
      List.append_assoc]
  have hname : lengthHeader.toList.isPrefixOf (lengthHeader.toList ++ (before ++ number)) = true :=
    List.isPrefixOf_iff_prefix.mpr (List.prefix_append _ _)
  have hvalue : Text.unsigned? 10 0x10000000000000000 number = some n :=
    Text.unsigned?_eq_some_iff.mpr ⟨hfits, digits, hdigits, hnumber⟩
  calc l.length?
      = lengthOf? (lengthHeader.toList ++ (before ++ number)) := by rw [length?, htrim]
    _ = some (Text.unsigned? 10 0x10000000000000000 (Text.trim (before ++ number))) := by
        rw [lengthOf?, if_pos hname, List.drop_left]
    _ = some (some n) := by rw [Text.trim_word hbefore hvisible hne, hvalue]

theorem length?_eq_size_iff : l.length? = some (some n) ↔ l.HasSize n :=
  ⟨hasSize_of_length?, length?_of_hasSize⟩

/-- A line with something visible on it is not blank. -/
theorem not_isBlank {c : Char} (hc : c ∈ l.text.toList) (hvisible : Text.isBlank c = false) :
    ¬ l.IsBlank := fun hall =>
  Bool.false_ne_true (hvisible.symm.trans (hall c hc))

theorem HasSize.visible (h : l.HasSize n) : ¬ l.IsBlank := by
  obtain ⟨-, before, number, behind, digits, -, -, -, htext⟩ := h
  refine not_isBlank (c := ':') ?_ (by decide)
  rw [htext]
  exact List.mem_append_left _ (by decide)

theorem GivesLength.hasSize (h : l.GivesLength n) (hfits : n < 0x10000000000000000) :
    l.HasSize n := by
  obtain ⟨before, behind, hblank, htext⟩ := h
  exact ⟨hfits, before, _, behind, _, hblank, Text.isDecimal_toString n, Or.inl rfl, htext⟩

end HeaderLine

theorem headerLine_of_blank (hblank : l.IsBlank) (length : Option Nat) :
    headerLine length l.bytes = .ok (match length with
      | some n => .body n
      | none => .more none) := by
  have htrim := Text.trimEnd_eq_nil_iff.mpr hblank
  simp only [headerLine, utf8Decode?_lineBytes, trimEnd_line, htrim, List.isEmpty_nil, if_true]
  cases length <;> rfl

theorem headerLine_of_visible (hvisible : ¬ l.IsBlank) (length : Option Nat) :
    headerLine length l.bytes =
      .ok (.more ((lengthOf? (Text.trimEnd l.text.toList)).getD length)) := by
  have htrim : (Text.trimEnd l.text.toList).isEmpty = false := by
    rw [List.isEmpty_eq_false_iff]
    exact fun h => hvisible (Text.trimEnd_eq_nil_iff.mp h)
  simp only [headerLine, utf8Decode?_lineBytes, trimEnd_line, htrim, Bool.false_eq_true, if_false]

theorem headerLine_of_other (hother : l.IsOther) (length : Option Nat) :
    headerLine length l.bytes = .ok (.more length) := by
  rw [headerLine_of_visible hother.visible, ← HeaderLine.length?,
    HeaderLine.length?_eq_none_iff.mpr hother.unnamed, Option.getD_none]

theorem headerLine_of_length (hgiven : l.GivesLength n) (hfits : n < 0x10000000000000000)
    (length : Option Nat) : headerLine length l.bytes = .ok (.more (some n)) := by
  have hsize := hgiven.hasSize hfits
  rw [headerLine_of_visible hsize.visible, ← HeaderLine.length?,
    HeaderLine.length?_of_hasSize hsize, Option.getD_some]

end lines

section stream

variable {length : Option Nat} {rest : List UInt8}

theorem frameFrom_feed (reversed rest : List UInt8) :
    frameFrom length reversed (10 :: rest) = match headerLine length (10 :: reversed).reverse with
      | .error e => .failed e
      | .ok (.body n) => takeBody n rest
      | .ok (.more length) => frameFrom length [] rest := rfl

theorem frameFrom_byte {b : UInt8} (hb : b ≠ 10) (reversed rest : List UInt8) :
    frameFrom length reversed (b :: rest) = frameFrom length (b :: reversed) rest :=
  if_neg hb

/-- The end of input may end a last line that has no line feed. -/
theorem frameFrom_end {reversed : List UInt8} (hne : reversed ≠ []) :
    frameFrom length reversed [] = match headerLine length reversed.reverse with
      | .error e => .failed e
      | .ok (.body n) => takeBody n []
      | .ok (.more _) => .endOfInput := by
  have hgathered : ¬ reversed.isEmpty = true := by simpa using hne
  exact if_neg hgathered

/-- Bytes other than a line feed are gathered for the line that they are on. -/
theorem frameFrom_gather {cs : List UInt8} (hcs : 10 ∉ cs) (reversed : List UInt8) :
    frameFrom length reversed (cs ++ rest) = frameFrom length (cs.reverse ++ reversed) rest := by
  induction cs generalizing reversed with
  | nil => rfl
  | cons b cs ih =>
    obtain ⟨hb, hcs⟩ := not_or.mp (mt List.mem_cons.mpr hcs)
    rw [List.cons_append, frameFrom_byte (Ne.symm hb), ih hcs, List.reverse_cons,
      List.append_assoc]
    rfl

theorem frameFrom_line (l : HeaderLine) :
    frameFrom length [] (l.bytes ++ rest) = match headerLine length l.bytes with
      | .error e => .failed e
      | .ok (.body n) => takeBody n rest
      | .ok (.more length) => frameFrom length [] rest := by
  have hgather : frameFrom length [] (Text.utf8Encode l.text ++ 10 :: rest) =
      frameFrom length ((Text.utf8Encode l.text).reverse ++ []) (10 :: rest) :=
    frameFrom_gather (Text.lineFeed_notMem_utf8Encode l.oneLine) []
  have hline : (10 :: ((Text.utf8Encode l.text).reverse ++ [])).reverse = l.bytes := by
    rw [List.append_nil, List.reverse_cons, List.reverse_reverse, HeaderLine.bytes]
  have hstream : l.bytes ++ rest = Text.utf8Encode l.text ++ 10 :: rest :=
    List.append_assoc _ [10] rest
  rw [hstream, hgather, ← hline]
  exact if_pos rfl

/-- Lines that leave the length as it is are passed over. -/
theorem frameFrom_pass {lines : List HeaderLine}
    (hlines : ∀ l ∈ lines, headerLine length l.bytes = .ok (.more length)) :
    frameFrom length [] (lines.flatMap HeaderLine.bytes ++ rest) = frameFrom length [] rest := by
  induction lines with
  | nil => rfl
  | cons l lines ih =>
    obtain ⟨hl, hlines⟩ := List.forall_mem_cons.mp hlines
    rw [List.flatMap_cons, List.append_assoc, frameFrom_line, hl]
    exact ih hlines

theorem readFrame_block {n : Nat} (b : HeaderBlock n) (rest : List UInt8) :
    readFrame (b.bytes ++ rest) = takeBody n rest := by
  obtain ⟨hbefore, hbehind⟩ := List.forall_mem_append.mp b.other
  have hblanks : ∀ l ∈ b.blanks, headerLine none l.bytes = .ok (.more none) :=
    fun l hl => headerLine_of_blank (b.blank l hl) none
  have hfields : ∀ l ∈ b.blanks ++ b.before, headerLine none l.bytes = .ok (.more none) :=
    List.forall_mem_append.mpr ⟨hblanks, fun l hl => headerLine_of_other (hbefore l hl) none⟩
  have hmore : ∀ l ∈ b.behind, headerLine (some n) l.bytes = .ok (.more (some n)) :=
    fun l hl => headerLine_of_other (hbehind l hl) (some n)
  have hlength := headerLine_of_length b.given b.fits none
  have hclose := headerLine_of_blank b.closed (some n)
  have hbytes : b.bytes ++ rest = (b.blanks ++ b.before).flatMap HeaderLine.bytes ++
      (b.length.bytes ++ (b.behind.flatMap HeaderLine.bytes ++ (b.close.bytes ++ rest))) := by
    simp [HeaderBlock.bytes]
  calc readFrame (b.bytes ++ rest)
      = frameFrom none [] (b.length.bytes ++
          (b.behind.flatMap HeaderLine.bytes ++ (b.close.bytes ++ rest))) := by
        rw [hbytes, readFrame, frameFrom_pass hfields]
    _ = frameFrom (some n) [] (b.behind.flatMap HeaderLine.bytes ++ (b.close.bytes ++ rest)) := by
        rw [frameFrom_line, hlength]
    _ = frameFrom (some n) [] (b.close.bytes ++ rest) := frameFrom_pass hmore
    _ = takeBody n rest := by rw [frameFrom_line, hclose]

theorem readFrame_framed (f : FramedBody) (rest : List UInt8) :
    readFrame (f.bytes ++ rest) = .body f.body rest := by
  have htake : (f.body ++ rest).take f.body.length = f.body := List.take_left
  have hdrop : (f.body ++ rest).drop f.body.length = rest := List.drop_left
  rw [FramedBody.bytes, List.append_assoc, readFrame_block, takeBody]
  simp only [htake, hdrop, if_true]

theorem takeBody_shorter {n : Nat} {bytes body rest : List UInt8}
    (h : takeBody n bytes = .body body rest) : rest.length ≤ bytes.length := by
  simp only [takeBody] at h
  split at h
  · obtain ⟨-, rfl⟩ := Frame.body.inj h
    rw [List.length_drop]
    exact Nat.sub_le _ _
  · cases h

/-- Whatever is read takes at least one byte from the stream. -/
theorem frameFrom_shorter {reversed bytes body rest : List UInt8}
    (h : frameFrom length reversed bytes = .body body rest) :
    rest.length < bytes.length + reversed.length := by
  induction bytes generalizing length reversed with
  | nil =>
    cases reversed with
    | nil => cases h
    | cons c reversed =>
      rw [frameFrom_end (List.cons_ne_nil c reversed)] at h
      cases hline : headerLine length (c :: reversed).reverse with
      | error e =>
        rw [hline] at h
        cases h
      | ok found =>
        rw [hline] at h
        cases found with
        | more length => cases h
        | body n =>
          have hrest := takeBody_shorter h
          rw [List.length_nil] at hrest ⊢
          rw [List.length_cons]
          omega
  | cons b bytes ih =>
    rw [List.length_cons]
    by_cases hfeed : b = 10
    · subst hfeed
      rw [frameFrom_feed] at h
      cases hline : headerLine length (10 :: reversed).reverse with
      | error e =>
        rw [hline] at h
        cases h
      | ok found =>
        rw [hline] at h
        cases found with
        | more length =>
          have hrest := ih h
          rw [List.length_nil] at hrest
          omega
        | body n =>
          have hrest := takeBody_shorter h
          omega
    · rw [frameFrom_byte hfeed] at h
      have hrest := ih h
      rw [List.length_cons] at hrest
      omega

theorem readFrame_shorter {bytes body rest : List UInt8} (h : readFrame bytes = .body body rest) :
    rest.length < bytes.length := frameFrom_shorter h

/-- More fuel than bytes is enough, and more of it makes no difference. -/
theorem incomingFrom_eq {bytes : List UInt8} {fuel more : Nat} (hfuel : bytes.length < fuel)
    (hmore : bytes.length < more) : incomingFrom bytes fuel = incomingFrom bytes more := by
  -- each frame takes one unit of fuel and at least one byte
  induction fuel generalizing bytes more with
  | zero => exact absurd hfuel (Nat.not_lt_zero _)
  | succ fuel ih =>
    obtain ⟨more, rfl⟩ : ∃ k, more = k + 1 := ⟨more - 1, by omega⟩
    rw [incomingFrom, incomingFrom]
    cases hframe : readFrame bytes with
    | endOfInput | failed => rfl
    | body body rest =>
      have hrest := readFrame_shorter hframe
      simp only
      rw [ih (by omega) (by omega : rest.length < more)]

theorem incoming_of_body {bytes body rest : List UInt8} (h : readFrame bytes = .body body rest) :
    incoming bytes = .ofBody body :: incoming rest := by
  have hrest := readFrame_shorter h
  rw [incoming, incomingFrom, h]
  simp only
  rw [incomingFrom_eq hrest (Nat.lt_succ_self rest.length), incoming]

theorem Takes.incoming_eq {bytes rest : List UInt8} {bodies : List (List UInt8)}
    (h : Takes bytes bodies rest) :
    incoming bytes = bodies.map Incoming.ofBody ++ incoming rest := by
  induction h with
  | done => rfl
  | read hframe _ ih => rw [incoming_of_body hframe, ih, List.map_cons, List.cons_append]

/-- From any frames in front of a stream their bodies are taken. -/
theorem takes_frames (frames : List FramedBody) (rest : List UInt8) :
    Takes (frames.flatMap FramedBody.bytes ++ rest) (frames.map (·.body)) rest := by
  induction frames with
  | nil => exact .done rest
  | cons f frames ih =>
    rw [List.flatMap_cons, List.append_assoc, List.map_cons]
    exact .read (readFrame_framed f _) ih

theorem incoming_frames (frames : List FramedBody) (rest : List UInt8) :
    incoming (frames.flatMap FramedBody.bytes ++ rest) =
      frames.map (fun f => Incoming.ofBody f.body) ++ incoming rest := by
  rw [(takes_frames frames rest).incoming_eq, List.map_map]
  rfl

end stream

section sent

/-- The field for the length in front of a message that is sent. -/
def ownLength (n : Nat) : String := lengthHeader ++ " " ++ toString n ++ "\r"

theorem toList_ownLength (n : Nat) :
    (ownLength n).toList = lengthHeader.toList ++ ([' '] ++ (toString n).toList ++ ['\r']) := by
  simp only [ownLength, String.toList_append, List.append_assoc]
  rfl

theorem isBlank_return : ∀ c ∈ ['\r'], Text.isBlank c = true :=
  List.forall_mem_singleton.mpr (by decide)

/-- The header in front of a message that is sent. -/
def ownHeader (n : Nat) (fits : n < 0x10000000000000000) : HeaderBlock n where
  blanks := []
  before := []
  length := ⟨ownLength n, by
    have hdigits : '\n' ∉ (toString n).toList := by
      intro h
      exact absurd (Text.isDigit_of_mem_toString h) (by decide)
    have hname : '\n' ∉ lengthHeader.toList := by decide
    rw [toList_ownLength]
    simp only [List.mem_append, hname, hdigits]
    decide⟩
  behind := []
  close := ⟨"\r", by decide⟩
  blank := List.forall_mem_nil _
  other := List.forall_mem_nil _
  given := by
    have hspace : ∀ c ∈ [' '], Text.isBlank c = true := List.forall_mem_singleton.mpr (by decide)
    exact ⟨[' '], ['\r'], List.forall_mem_append.mpr ⟨hspace, isBlank_return⟩, toList_ownLength n⟩
  closed := by exact isBlank_return
  fits := fits

theorem bytes_ownHeader (n : Nat) (fits : n < 0x10000000000000000) :
    (ownHeader n fits).bytes = Text.utf8Encode (ownLength n ++ "\n\r\n") := by
  have hend : Text.utf8Encode "\n\r\n" = [10] ++ (Text.utf8Encode "\r" ++ [10]) := by
    rw [Text.utf8Encode_eq_flatMap, Text.utf8Encode_eq_flatMap]
    rfl
  rw [Text.utf8Encode_append, hend, ← List.append_assoc]
  simp [HeaderBlock.bytes, ownHeader, HeaderLine.bytes]

/-- A body with the header that the server would put in front of it. -/
def FramedBody.own (body : List UInt8) (fits : body.length < 0x10000000000000000) :
    FramedBody where
  body := body
  header := ownHeader body.length fits

theorem bytes_own (m : Message)
    (fits : (Text.utf8Encode m.toJson.text).length < 0x10000000000000000) :
    (FramedBody.own (Text.utf8Encode m.toJson.text) fits).bytes =
      Text.utf8Encode (frameText m) := by
  have hend : "\r\n\r\n" = "\r" ++ "\n\r\n" := by decide
  have htext : frameText m =
      ownLength m.toJson.text.utf8ByteSize ++ "\n\r\n" ++ m.toJson.text := by
    show lengthHeader ++ " " ++ toString m.toJson.text.utf8ByteSize ++ "\r\n\r\n" ++
      m.toJson.text = _
    rw [hend, ← String.append_assoc, ownLength]
  rw [FramedBody.bytes, FramedBody.own, bytes_ownHeader, ← Text.utf8Encode_append,
    Text.length_utf8Encode, htext]

theorem takes_sent {sent : List Message}
    (hfits : ∀ m ∈ sent, m.toJson.text.utf8ByteSize < 0x10000000000000000) :
    Takes (sent.flatMap fun m => Text.utf8Encode (frameText m))
      (sent.map fun m => Text.utf8Encode m.toJson.text) [] := by
  induction sent with
  | nil => exact .done []
  | cons m sent ih =>
    obtain ⟨hm, hsent⟩ := List.forall_mem_cons.mp hfits
    rw [← Text.length_utf8Encode] at hm
    have hframe := readFrame_framed (.own (Text.utf8Encode m.toJson.text) hm)
      (sent.flatMap fun m => Text.utf8Encode (frameText m))
    rw [bytes_own] at hframe
    rw [List.flatMap_cons, List.map_cons]
    exact .read hframe (ih hsent)

end sent

/-- Frames one behind the other are taken one by one, each with exactly its own bytes, whatever
their bodies hold; then comes what stands behind the last of them, or the end of input. What is made
of a body depends on that body alone, and only one that is no message is malformed. What the server
itself has sent is read back as the very texts of its messages. -/
theorem frames_taken_in_order (frames : List FramedBody) (rest : List UInt8) :
    Takes (frames.flatMap FramedBody.bytes ++ rest) (frames.map (·.body)) rest ∧
    incoming (frames.flatMap FramedBody.bytes ++ rest) =
      frames.map (fun f => Incoming.ofBody f.body) ++ incoming rest ∧
    (∀ f ∈ frames, (Incoming.ofBody f.body = .malformed ↔ ¬ IsEnvelope f.body) ∧
      ((∃ m, Incoming.ofBody f.body = .message m) ↔ IsEnvelope f.body)) ∧
    readFrame [] = .endOfInput ∧ incoming [] = [] ∧
    ∀ sent : List Message, (∀ m ∈ sent, m.toJson.text.utf8ByteSize < 0x10000000000000000) →
      Takes (sent.flatMap fun m => Text.utf8Encode (frameText m))
        (sent.map fun m => Text.utf8Encode m.toJson.text) [] := by
  refine ⟨takes_frames frames rest, incoming_frames frames rest, ?_, rfl, rfl, ?_⟩
  · intro f _
    exact ⟨ofBody_eq_malformed_iff f.body, ofBody_eq_message_iff f.body⟩
  · intro sent hfits
    exact takes_sent hfits

def headerLike : FramedBody :=
  .own (Text.utf8Encode "Content-Length: 1\r\n\r\n") (by rw [Text.length_utf8Encode]; decide)

def emptyBody : FramedBody :=
  .own (Text.utf8Encode "") (by rw [Text.length_utf8Encode]; decide)

def lineEvent : Message := ⟨1, "event", .event "é\n" none⟩

def framedEvent : FramedBody :=
  .own (Text.utf8Encode lineEvent.toJson.text) (by rw [Text.length_utf8Encode]; decide)

theorem document?_framedEvent : document? framedEvent.body = some lineEvent.toJson :=
  document?_text (plain_toJson (by decide) (List.forall_mem_singleton.mpr (.str 126 _)))

/-- A body that looks like a header and an empty one are malformed, and the event behind them is
read. -/
theorem header_like_body_hides_nothing :
    incoming ([headerLike, emptyBody, framedEvent].flatMap FramedBody.bytes) =
      [.malformed, .malformed, .message lineEvent] ∧
    Takes (Text.utf8Encode (frameText lineEvent)) [Text.utf8Encode lineEvent.toJson.text] [] := by
  obtain ⟨-, hincoming, hkinds, -, hend, hsent⟩ :=
    frames_taken_in_order [headerLike, emptyBody, framedEvent] []
  have hnone : ∀ text : String, Json.parse maxDepth text.toList = none →
      ¬ IsEnvelope (Text.utf8Encode text) := by
    rintro text hparse ⟨members, hdocument, -⟩
    rw [document?, Text.utf8Decode?_utf8Encode, Option.bind_some, hparse] at hdocument
    cases hdocument
  have hheader : Incoming.ofBody headerLike.body = .malformed :=
    (hkinds headerLike (by simp)).1.mpr (hnone _ (by rfl))
  have hempty : Incoming.ofBody emptyBody.body = .malformed :=
    (hkinds emptyBody (by simp)).1.mpr (hnone "" (by rfl))
  have hevent : Incoming.ofBody framedEvent.body = .message lineEvent := by
    rw [Incoming.ofBody, decodeBody?_eq_bind, document?_framedEvent, Option.bind_some,
      ofJson?_toJson (by decide)]
    rfl
  constructor
  · rw [List.append_nil, hend] at hincoming
    rw [hincoming]
    simp [hheader, hempty, hevent]
  · have htakes := hsent [lineEvent] (by decide)
    rwa [List.flatMap_singleton, List.map_singleton] at htakes

end Comet.Adapter
