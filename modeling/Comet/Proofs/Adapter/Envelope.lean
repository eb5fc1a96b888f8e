import Comet.Adapter.Frame
import Comet.Proofs.Json.RoundTrip

/-! The documents that are messages. Three kinds of messages are told apart by the members that they
must have and those that they may have. A kind is tried only if the one before it does not fit, and
what a message says of its own type has no part in it: so a response, which repeats the command of
its request, passes for a request. -/
namespace Comet.Adapter

open Json

/-- The document that a body holds. -/
def document? (body : List UInt8) : Option Json :=
  (Text.utf8Decode? body).bind fun text => Json.parse maxDepth text.toList

theorem decodeBody?_eq_bind (body : List UInt8) :
    decodeBody? body = (document? body).bind Message.ofJson? := by
  rw [decodeBody?, document?, Option.bind_assoc]

def IsText (v : Json) : Prop := ∃ s, v = .str s

def IsTruth (v : Json) : Prop := ∃ b, v = .bool b

/-- A number that needs no sign and at most 64 bits. -/
def IsCount (v : Json) : Prop := ∃ n < 0x10000000000000000, v = .ofNat n

/-- The member is written once, and its value is of this kind. -/
def Once (name : String) (kind : Json → Prop) (members : List (String × Json)) : Prop :=
  ∃ v, valuesOf name members = [v] ∧ kind v

/-- The member is left out, or written once with null or a value of this kind. -/
def AtMostOnce (name : String) (kind : Json → Prop) (members : List (String × Json)) : Prop :=
  valuesOf name members = [] ∨ ∃ v, valuesOf name members = [v] ∧ (v = .null ∨ kind v)

structure RequestMembers (members : List (String × Json)) : Prop where
  command : Once "command" IsText members
  arguments : AtMostOnce "arguments" (fun _ => True) members

structure ResponseMembers (members : List (String × Json)) : Prop where
  requestSeq : Once "request_seq" IsCount members
  success : Once "success" IsTruth members
  command : Once "command" IsText members
  message : AtMostOnce "message" IsText members
  body : AtMostOnce "body" (fun _ => True) members

structure EventMembers (members : List (String × Json)) : Prop where
  event : Once "event" IsText members
  body : AtMostOnce "body" (fun _ => True) members

/-- What makes an object a message. Further members of other names do not matter. -/
structure EnvelopeMembers (members : List (String × Json)) : Prop where
  seq : Once "seq" IsCount members
  type : Once "type" IsText members
  content : RequestMembers members ∨ ResponseMembers members ∨ EventMembers members

/-- The body of a message: an object in valid JSON with the members of a message. -/
def IsEnvelope (body : List UInt8) : Prop :=
  ∃ members, document? body = some (.obj members) ∧ EnvelopeMembers members

section members

variable {α : Type} {name : String} {read : Json → Option α} {kind : Json → Prop}
  {members : List (String × Json)}

theorem string?_eq_some_iff {v : Json} {s : String} : string? v = some s ↔ v = .str s := by
  cases v <;> simp [string?]

theorem nat?_eq_some_iff {v : Json} {n : Nat} :
    nat? v = some n ↔ n < 0x10000000000000000 ∧ v = .ofNat n := by
  constructor
  · intro hread
    cases v with
    | num x =>
      cases x with
      | int z =>
        cases z with
        | ofNat k =>
          obtain ⟨hk, hsame⟩ := Option.ite_none_right_eq_some.mp hread
          obtain rfl := Option.some.inj hsame
          exact ⟨hk, rfl⟩
        | negSucc => cases hread
      | double => cases hread
    | null | bool | str | arr | obj => cases hread
  · rintro ⟨hn, rfl⟩
    exact if_pos hn

theorem isSome_string? (v : Json) : (string? v).isSome ↔ IsText v := by
  rw [Option.isSome_iff_exists]
  exact exists_congr fun s => string?_eq_some_iff

theorem isSome_bool? (v : Json) : (bool? v).isSome ↔ IsTruth v := by
  cases v <;> simp [bool?, IsTruth]

theorem isSome_nat? (v : Json) : (nat? v).isSome ↔ IsCount v := by
  rw [Option.isSome_iff_exists]
  exact exists_congr fun n => nat?_eq_some_iff

theorem isSome_any? (v : Json) : (any? v).isSome ↔ True := by simp [any?]

theorem required?_eq_some_iff {a : α} :
    required? name read members = some a ↔ ∃ v, valuesOf name members = [v] ∧ read v = some a := by
  rw [required?]
  cases valuesOf name members with
  | nil => simp
  | cons v values => cases values <;> simp

theorem isSome_required? (hread : ∀ v, (read v).isSome ↔ kind v) :
    (required? name read members).isSome ↔ Once name kind members := by
  simp only [Option.isSome_iff_exists, required?_eq_some_iff, Once, ← hread]
  rw [exists_comm]
  simp only [exists_and_left]

theorem isSome_optional? (hread : ∀ v, (read v).isSome ↔ kind v) :
    (optional? name read members).isSome ↔ AtMostOnce name kind members := by
  rw [optional?, AtMostOnce]
  cases valuesOf name members with
  | nil => simp
  | cons v values =>
    cases values with
    | nil => cases v <;> simp [← hread]
    | cons => simp

/-- A read that goes on in the same way whatever has been read. -/
theorem isSome_bind_iff {β : Type} {p : Prop} {x : Option α} {next : α → Option β}
    (hnext : ∀ a, (next a).isSome ↔ p) : (x >>= next).isSome ↔ x.isSome ∧ p := by
  cases x with
  | none => simp
  | some a => simpa using hnext a

end members

section kinds

variable {members : List (String × Json)}

theorem isSome_request? : (request? members).isSome ↔ RequestMembers members := by
  have hread : (request? members).isSome ↔ (required? "command" string? members).isSome ∧
      (optional? "arguments" any? members).isSome ∧ True :=
    isSome_bind_iff fun _ => isSome_bind_iff fun _ => iff_true_intro rfl
  rw [hread, isSome_required? isSome_string?, isSome_optional? isSome_any?]
  constructor
  · rintro ⟨hcommand, harguments, -⟩
    exact ⟨hcommand, harguments⟩
  · intro h
    exact ⟨h.command, h.arguments, trivial⟩

theorem isSome_response? : (response? members).isSome ↔ ResponseMembers members := by
  have hread : (response? members).isSome ↔ (required? "request_seq" nat? members).isSome ∧
      (required? "success" bool? members).isSome ∧ (required? "command" string? members).isSome ∧
      (optional? "message" string? members).isSome ∧ (optional? "body" any? members).isSome ∧
      True :=
    isSome_bind_iff fun _ => isSome_bind_iff fun _ => isSome_bind_iff fun _ =>
      isSome_bind_iff fun _ => isSome_bind_iff fun _ => iff_true_intro rfl
  rw [hread, isSome_required? isSome_nat?, isSome_required? isSome_bool?,
    isSome_required? isSome_string?, isSome_optional? isSome_string?, isSome_optional? isSome_any?]
  constructor
  · rintro ⟨hrequestSeq, hsuccess, hcommand, hmessage, hbody, -⟩
    exact ⟨hrequestSeq, hsuccess, hcommand, hmessage, hbody⟩
  · intro h
    exact ⟨h.requestSeq, h.success, h.command, h.message, h.body, trivial⟩

theorem isSome_event? : (event? members).isSome ↔ EventMembers members := by
  have hread : (event? members).isSome ↔ (required? "event" string? members).isSome ∧
      (optional? "body" any? members).isSome ∧ True :=
    isSome_bind_iff fun _ => isSome_bind_iff fun _ => iff_true_intro rfl
  rw [hread, isSome_required? isSome_string?, isSome_optional? isSome_any?]
  constructor
  · rintro ⟨hevent, hbody, -⟩
    exact ⟨hevent, hbody⟩
  · intro h
    exact ⟨h.event, h.body, trivial⟩

theorem isSome_content? : (content? members).isSome ↔
    RequestMembers members ∨ ResponseMembers members ∨ EventMembers members := by
  rw [content?, Option.isSome_or, Option.isSome_or, Bool.or_eq_true, Bool.or_eq_true,
    isSome_request?, isSome_response?, isSome_event?]

theorem isSome_ofJson? (v : Json) : (Message.ofJson? v).isSome ↔
    ∃ members, v = .obj members ∧ EnvelopeMembers members := by
  cases v with
  | null | bool | num | str | arr => simp [Message.ofJson?]
  | obj members =>
    have hread : (Message.ofJson? (.obj members)).isSome ↔
        (required? "seq" nat? members).isSome ∧ (required? "type" string? members).isSome ∧
          (content? members).isSome ∧ True :=
      isSome_bind_iff fun _ => isSome_bind_iff fun _ => isSome_bind_iff fun _ =>
        iff_true_intro rfl
    rw [hread, isSome_required? isSome_nat?, isSome_required? isSome_string?, isSome_content?]
    constructor
    · rintro ⟨hseq, htype, hcontent, -⟩
      exact ⟨members, rfl, hseq, htype, hcontent⟩
    · rintro ⟨_, hv, h⟩
      obtain rfl := obj.inj hv
      exact ⟨h.seq, h.type, h.content, trivial⟩

end kinds

section written

variable {name : String} {members : List (String × Json)}

/-- What is left of a value that may be left out: null stands for no value. -/
def kept : Option Json → Option Json
  | none | some .null => none
  | some v => some v.canonical

@[simp] theorem valuesOf_nil (name : String) : valuesOf name [] = [] := rfl

theorem valuesOf_cons (name : String) (m : String × Json) (members : List (String × Json)) :
    valuesOf name (m :: members) =
      if m.1 = name then m.2 :: valuesOf name members else valuesOf name members := by
  by_cases h : m.1 = name <;> simp [valuesOf, h]

theorem valuesOf_append (name : String) (first second : List (String × Json)) :
    valuesOf name (first ++ second) = valuesOf name first ++ valuesOf name second := by
  simp only [valuesOf, List.filter_append, List.map_append]

theorem valuesOf_optionalMember (name other : String) (v : Option Json) :
    valuesOf name (optionalMember other v) = if other = name then v.toList else [] := by
  cases v with
  | none => exact (ite_self []).symm
  | some v => exact valuesOf_cons name (other, v) []

theorem required?_of_valuesOf {α : Type} {read : Json → Option α} {v : Json} {a : α}
    (hvalue : valuesOf name members = [v]) (hread : read v = some a) :
    required? name read members = some a :=
  required?_eq_some_iff.mpr ⟨v, hvalue, hread⟩

theorem required?_of_missing {α : Type} {read : Json → Option α}
    (hmissing : valuesOf name members = []) : required? name read members = none := by
  rw [required?, hmissing]

theorem optional?_any {v : Option Json} (hvalue : valuesOf name members = v.toList) :
    optional? name any? members = some (kept v) := by
  rw [optional?, hvalue]
  cases v with
  | none => rfl
  | some v => cases v <;> rfl

/-- What a message that has been written is read as. -/
def Content.readAs : Content → Content
  | .request command arguments => .request command (kept arguments)
  | .response _ _ command _ _ => .request command none
  | .event name body => .event name (kept body)

theorem content?_of_command {command : String} {arguments : Option Json}
    (hcommand : valuesOf "command" members = [.str command])
    (harguments : valuesOf "arguments" members = arguments.toList) :
    content? members = some (.request command (kept arguments)) := by
  have hname : required? "command" string? members = some command :=
    required?_of_valuesOf hcommand rfl
  have hrequest : request? members = some (.request command (kept arguments)) := by
    rw [request?, hname, optional?_any harguments]
    rfl
  rw [content?, hrequest, Option.some_or]

theorem content?_of_event {event : String} {body : Option Json}
    (hcommand : valuesOf "command" members = [])
    (hrequestSeq : valuesOf "request_seq" members = [])
    (hevent : valuesOf "event" members = [.str event])
    (hbody : valuesOf "body" members = body.toList) :
    content? members = some (.event event (kept body)) := by
  have hrequest : request? members = none := by
    rw [request?, required?_of_missing hcommand]
    rfl
  have hresponse : response? members = none := by
    rw [response?, required?_of_missing hrequestSeq]
    rfl
  have hname : required? "event" string? members = some event := required?_of_valuesOf hevent rfl
  have hread : event? members = some (.event event (kept body)) := by
    rw [event?, hname, optional?_any hbody]
    rfl
  rw [content?, hrequest, hresponse, hread, Option.none_or, Option.none_or]

/-- The content of a message has none of the members that every message has. -/
theorem valuesOf_members (c : Content) :
    valuesOf "seq" c.members = [] ∧ valuesOf "type" c.members = [] := by
  cases c <;> simp [Content.members, valuesOf_cons, valuesOf_append, valuesOf_optionalMember]

/-- An event is read as the event that it is, and a response as a request of its command. -/
theorem ofJson?_toJson {m : Message} (hfits : m.seq < 0x10000000000000000) :
    Message.ofJson? m.toJson = some { m with content := m.content.readAs } := by
  obtain ⟨seq, type, content⟩ := m
  obtain ⟨hnoSeq, hnoType⟩ := valuesOf_members content
  let members := ("seq", .ofNat seq) :: ("type", .str type) :: content.members
  have hseqs : valuesOf "seq" members = [.ofNat seq] := by simp [members, valuesOf_cons, hnoSeq]
  have htypes : valuesOf "type" members = [.str type] := by simp [members, valuesOf_cons, hnoType]
  have hseq : required? "seq" nat? members = some seq :=
    required?_of_valuesOf hseqs (nat?_eq_some_iff.mpr ⟨hfits, rfl⟩)
  have htype : required? "type" string? members = some type := required?_of_valuesOf htypes rfl
  have hcontent : content? members = some content.readAs := by
    cases content with
    | request command arguments =>
      apply content?_of_command <;>
        simp [members, Content.members, valuesOf_cons, valuesOf_optionalMember]
    | response requestSeq success command message body =>
      show content? members = some (.request command (kept none))
      apply content?_of_command <;>
        simp [members, Content.members, valuesOf_cons, valuesOf_append, valuesOf_optionalMember]
    | event event body =>
      apply content?_of_event <;>
        simp [members, Content.members, valuesOf_cons, valuesOf_optionalMember]
  show Message.ofJson? (.obj members) = _
  rw [Message.ofJson?, hseq, htype, hcontent]
  rfl

theorem plain_toJson {m : Message} {depth : Nat} (hfits : m.seq < 0x10000000000000000)
    (hcontent : ∀ member ∈ m.content.members, Json.Plain depth member.2) :
    Json.Plain (depth + 1) m.toJson := by
  have hwhole : (Number.int m.seq).Whole := ⟨by omega, by omega⟩
  exact .obj (List.forall_mem_cons.mpr ⟨.num hwhole, List.forall_mem_cons.mpr ⟨.str _ _, hcontent⟩⟩)

theorem document?_text {v : Json} (hplain : Json.Plain maxDepth v) :
    document? (Text.utf8Encode v.text) = some v := by
  rw [document?, Text.utf8Decode?_utf8Encode, Option.bind_some, Json.parse_text hplain]

end written

theorem isSome_decodeBody? (body : List UInt8) : (decodeBody? body).isSome ↔ IsEnvelope body := by
  rw [decodeBody?_eq_bind, IsEnvelope]
  cases document? body with
  | none => simp
  | some v => simpa using isSome_ofJson? v

/-- A body that is no message is malformed, and nothing else is. -/
theorem ofBody_eq_malformed_iff (body : List UInt8) :
    Incoming.ofBody body = .malformed ↔ ¬ IsEnvelope body := by
  rw [← isSome_decodeBody?, Incoming.ofBody]
  cases decodeBody? body <;> simp

theorem ofBody_eq_message_iff (body : List UInt8) :
    (∃ m, Incoming.ofBody body = .message m) ↔ IsEnvelope body := by
  rw [← isSome_decodeBody?, Incoming.ofBody]
  cases decodeBody? body <;> simp

theorem ofBody_toJson {body : List UInt8} {m : Message} (hfits : m.seq < 0x10000000000000000)
    (hdocument : document? body = some m.toJson) :
    Incoming.ofBody body = .message { m with content := m.content.readAs } := by
  rw [Incoming.ofBody, decodeBody?_eq_bind, hdocument, Option.bind_some, ofJson?_toJson hfits]

end Comet.Adapter
