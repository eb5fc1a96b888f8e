import Comet.Assembly.Link
import Comet.Proofs.Adapter.Exchange
import Comet.Proofs.Adapter.Framing

namespace Comet.Adapter

open Json

/-- The members name one command, and perhaps arguments for it. -/
structure AsksFor (members : List (String × Json)) (r : ClientRequest) : Prop where
  seq : valuesOf "seq" members = [.ofNat r.seq]
  fits : r.seq < 0x10000000000000000
  type : Once "type" IsText members
  command : valuesOf "command" members = [.str r.command]
  once : (valuesOf "arguments" members).length ≤ 1
  arguments : r.arguments = kept (valuesOf "arguments" members).head?

/-- The body asks for that request. -/
def Asks (body : List UInt8) (r : ClientRequest) : Prop :=
  ∃ members, document? body = some (.obj members) ∧ AsksFor members r

/-- Wherever the frame stands behind others, all that is sent is what would be sent without it. -/
def FramedBody.Ignored (f : FramedBody) (h : Host) : Prop :=
  ∀ (s : Server) (before : List FramedBody) (after : List UInt8),
    s.serve h (incoming (before.flatMap FramedBody.bytes ++ (f.bytes ++ after))) =
      s.serve h (incoming (before.flatMap FramedBody.bytes ++ after))

section requests

variable {name command : String} {members : List (String × Json)} {arguments : Option Json}

theorem required?_text_iff {s : String} :
    required? name string? members = some s ↔ valuesOf name members = [.str s] := by
  simp only [required?_eq_some_iff, string?_eq_some_iff]
  constructor
  · rintro ⟨v, hv, rfl⟩
    exact hv
  · intro hv
    exact ⟨_, hv, rfl⟩

theorem required?_count_iff {n : Nat} :
    required? name nat? members = some n ↔
      valuesOf name members = [.ofNat n] ∧ n < 0x10000000000000000 := by
  simp only [required?_eq_some_iff, nat?_eq_some_iff]
  constructor
  · rintro ⟨v, hv, hn, rfl⟩
    exact ⟨hv, hn⟩
  · rintro ⟨hv, hn⟩
    exact ⟨_, hv, hn, rfl⟩

theorem optional?_any_iff : optional? name any? members = some arguments ↔
    (valuesOf name members).length ≤ 1 ∧ arguments = kept (valuesOf name members).head? := by
  cases hvalues : valuesOf name members with
  | nil =>
    have hvalue : valuesOf name members = (none : Option Json).toList := hvalues
    rw [optional?_any hvalue, Option.some.injEq, eq_comm]
    simp
  | cons v rest =>
    cases rest with
    | nil =>
      have hvalue : valuesOf name members = (some v).toList := hvalues
      rw [optional?_any hvalue, Option.some.injEq, eq_comm]
      simp
    | cons w rest =>
      rw [optional?, hvalues]
      simp

theorem request?_eq_some_iff {c : Content} : request? members = some c ↔
    ∃ command, required? "command" string? members = some command ∧
      ∃ arguments, optional? "arguments" any? members = some arguments ∧
        .request command arguments = c := by
  simp [request?, Option.bind_eq_some_iff]

/-- Only what names a command is read as a request. -/
theorem content?_request_iff : content? members = some (.request command arguments) ↔
    valuesOf "command" members = [.str command] ∧ (valuesOf "arguments" members).length ≤ 1 ∧
      arguments = kept (valuesOf "arguments" members).head? := by
  rw [← required?_text_iff, ← optional?_any_iff]
  constructor
  · intro hread
    rcases Option.or_eq_some_iff.mp hread with hrequest | ⟨-, hother⟩
    · obtain ⟨c, hcommand, a, harguments, hsame⟩ := request?_eq_some_iff.mp hrequest
      obtain ⟨rfl, rfl⟩ := Content.request.inj hsame
      exact ⟨hcommand, harguments⟩
    · exfalso
      rcases Option.or_eq_some_iff.mp hother with hresponse | ⟨-, hevent⟩
      · simp [response?, Option.bind_eq_some_iff] at hresponse
      · simp [event?, Option.bind_eq_some_iff] at hevent
  · rintro ⟨hcommand, harguments⟩
    rw [content?, request?, hcommand, harguments]
    rfl

theorem ofJson?_eq_some_iff {m : Message} : Message.ofJson? (.obj members) = some m ↔
    required? "seq" nat? members = some m.seq ∧ required? "type" string? members = some m.type ∧
      content? members = some m.content := by
  constructor
  · intro hread
    obtain ⟨seq, hseq, hread⟩ := Option.bind_eq_some_iff.mp hread
    obtain ⟨type, htype, hread⟩ := Option.bind_eq_some_iff.mp hread
    obtain ⟨content, hcontent, hread⟩ := Option.bind_eq_some_iff.mp hread
    cases hread
    exact ⟨hseq, htype, hcontent⟩
  · rintro ⟨hseq, htype, hcontent⟩
    rw [Message.ofJson?, hseq, htype, hcontent]
    rfl

theorem asksFor_iff {r : ClientRequest} : AsksFor members r ↔ ∃ type,
    Message.ofJson? (.obj members) = some ⟨r.seq, type, .request r.command r.arguments⟩ := by
  simp only [ofJson?_eq_some_iff, content?_request_iff, required?_count_iff, required?_text_iff]
  constructor
  · rintro ⟨hseq, hfits, ⟨v, hv, type, rfl⟩, hcommand, honce, harguments⟩
    exact ⟨type, ⟨hseq, hfits⟩, hv, hcommand, honce, harguments⟩
  · rintro ⟨type, ⟨hseq, hfits⟩, htype, hcommand, honce, harguments⟩
    exact ⟨hseq, hfits, ⟨_, htype, type, rfl⟩, hcommand, honce, harguments⟩

theorem request?_ofBody_iff {body : List UInt8} {r : ClientRequest} :
    (Incoming.ofBody body).request? = some r ↔ Asks body r := by
  have hdecoded : (Incoming.ofBody body).request? = some r ↔
      ∃ type, decodeBody? body = some ⟨r.seq, type, .request r.command r.arguments⟩ := by
    rw [Incoming.ofBody]
    cases decodeBody? body with
    | none => simp [Incoming.request?]
    | some m =>
      obtain ⟨seq, type, content⟩ := m
      cases content with
      | request command arguments =>
        constructor
        · intro hsame
          obtain rfl := Option.some.inj hsame
          exact ⟨type, rfl⟩
        · rintro ⟨type', hsame⟩
          cases hsame
          rfl
      | response | event => simp [Incoming.request?]
  rw [hdecoded, Asks]
  simp only [asksFor_iff, decodeBody?_eq_bind, Option.bind_eq_some_iff]
  constructor
  · rintro ⟨type, v, hdocument, hv⟩
    cases v with
    | obj members => exact ⟨members, hdocument, type, hv⟩
    | null | bool | num | str | arr => cases hv
  · rintro ⟨members, hdocument, type, hv⟩
    exact ⟨type, _, hdocument, hv⟩

theorem failure?_ofBody (body : List UInt8) : (Incoming.ofBody body).failure? = none := by
  rw [Incoming.ofBody]
  cases decodeBody? body <;> rfl

end requests

section streams

variable {h : Host} {f : FramedBody}

/-- What is no request and no failure is passed over behind anything else. -/
theorem serve_without {i : Incoming} (hrequest : i.request? = none) (hfailure : i.failure? = none)
    (s : Server) (before after : List Incoming) :
    s.serve h (before ++ i :: after) = s.serve h (before ++ after) := by
  -- the requests before it may lead to another server, so the induction is over all servers
  induction before generalizing s with
  | nil => exact Server.serve_of_ignored hrequest hfailure
  | cons j before ih =>
    rw [List.cons_append, List.cons_append]
    cases hj : j.request? with
    | some r => simp only [Server.serve_request hj, ih]
    | none =>
      cases hfailed : j.failure? with
      | some e => rw [Server.serve_of_failed hfailed, Server.serve_of_failed hfailed]
      | none => rw [Server.serve_of_ignored hj hfailed, Server.serve_of_ignored hj hfailed, ih]

/-- A frame that asks for nothing is ignored. -/
theorem ignored_of_asks_nothing (hnothing : ∀ r, ¬ Asks f.body r) : f.Ignored h := by
  intro s before after
  have hrequest : (Incoming.ofBody f.body).request? = none := by
    rw [Option.eq_none_iff_forall_ne_some]
    intro r hr
    exact hnothing r (request?_ofBody_iff.mp hr)
  rw [incoming_frames, incoming_frames, incoming_of_body (readFrame_framed f after)]
  exact serve_without hrequest (failure?_ofBody f.body) s _ _

/-- A frame that asks for something is answered, first of all by the response to it. -/
theorem served_of_asks {r : ClientRequest} (hasks : Asks f.body r) {s : Server}
    (hempty : s.session.events = #[]) (after : List UInt8) {sent : List Message}
    {failure : Option StreamError}
    (hserve : s.serve h (incoming (f.bytes ++ after)) = some (sent, failure)) :
    ∃ x t more, x.request = r ∧ s.Performs h x t ∧
      sent = Server.number s.seq x.contents ++ more := by
  rw [incoming_of_body (readFrame_framed f after),
    Server.serve_request_eq_some_iff hempty (request?_ofBody_iff.mpr hasks)] at hserve
  obtain ⟨x, t, hx, hperforms, hsent⟩ := hserve
  refine ⟨x, t, ?_⟩
  split at hsent
  · exact ⟨[], hx, hperforms, by rw [hsent.1, List.append_nil]⟩
  · obtain ⟨more, hmore, -⟩ := hsent
    exact ⟨more, hx, hperforms, hmore⟩

theorem asks_nothing_of_ignored (hignored : f.Ignored h) (r : ClientRequest) :
    ¬ Asks f.body r := by
  intro hasks
  have hsilent : ({} : Server).serve h (incoming (f.bytes ++ [])) = some ([], none) :=
    hignored {} [] []
  obtain ⟨x, t, more, -, -, hsent⟩ := served_of_asks hasks rfl [] hsilent
  cases hsent

end streams

/-- A frame is ignored if and only if it asks for nothing: if its body is no message, or one that
names no command. What asks for something is served as that request, whatever its type says. Of the
messages that can be written, read back from their own text, only the events are ignored: a response
names the command of its request, and is served as another request of that command. -/
theorem ignored_iff_asks_nothing (f : FramedBody) (h : Host) :
    (f.Ignored h ↔ ∀ r, ¬ Asks f.body r) ∧
    (∀ r, Asks f.body r → ∀ (s : Server) (after : List UInt8) (sent : List Message)
      (failure : Option StreamError), s.session.events = #[] →
        s.serve h (incoming (f.bytes ++ after)) = some (sent, failure) →
        ∃ x t more, x.request = r ∧ s.Performs h x t ∧
          sent = Server.number s.seq x.contents ++ more) ∧
    (∀ m : Message, m.seq < 0x10000000000000000 → document? f.body = some m.toJson →
      Incoming.ofBody f.body = .message { m with content := m.content.readAs } ∧
      (f.Ignored h ↔ ∃ name body, m.content = .event name body)) ∧
    ∀ m : Message, Json.Plain maxDepth m.toJson →
      document? (Text.utf8Encode m.toJson.text) = some m.toJson := by
  have hiff : f.Ignored h ↔ ∀ r, ¬ Asks f.body r :=
    ⟨asks_nothing_of_ignored, ignored_of_asks_nothing⟩
  refine ⟨hiff, ?_, ?_, fun m hplain => document?_text hplain⟩
  · intro r hasks s after sent failure hempty hserve
    exact served_of_asks hasks hempty after hserve
  · intro m hfits hdocument
    have hbody := ofBody_toJson hfits hdocument
    refine ⟨hbody, ?_⟩
    simp only [hiff, ← request?_ofBody_iff, hbody]
    obtain ⟨seq, type, content⟩ := m
    cases content <;> simp [Content.readAs, Incoming.request?]

def emptyFolder : Host where
  assembler := assemble
  readText _ := .error .notFound
  fuel := 0

def threadsResponse : Message := ⟨1, "response", .response 1 true "threads" none none⟩

def framedResponse : FramedBody :=
  .own (Text.utf8Encode threadsResponse.toJson.text) (by rw [Text.length_utf8Encode]; decide)

theorem plain_threadsResponse : Json.Plain maxDepth threadsResponse.toJson := by
  apply plain_toJson (by decide)
  have hwhole : (Json.Number.int 1).Whole := ⟨by decide, by decide⟩
  refine List.forall_mem_cons.mpr ⟨.num hwhole, List.forall_mem_cons.mpr ⟨.bool 126 true, ?_⟩⟩
  exact List.forall_mem_singleton.mpr (.str 126 "threads")

theorem document?_framedResponse : document? framedResponse.body = some threadsResponse.toJson :=
  document?_text plain_threadsResponse

theorem asks_framedResponse : Asks framedResponse.body ⟨1, "threads", none⟩ := by
  rw [← request?_ofBody_iff, ofBody_toJson (by decide) document?_framedResponse]
  rfl

/-- An event is ignored. A response to `threads` is answered by another one. -/
theorem response_answered_by_response :
    framedEvent.Ignored emptyFolder ∧ ¬ framedResponse.Ignored emptyFolder ∧
    ∃ sent, ({} : Server).serve emptyFolder (incoming (framedResponse.bytes ++ [])) =
      some (sent, none) ∧ ∃ x t more, x.request = ⟨1, "threads", none⟩ ∧
        ({} : Server).Performs emptyFolder x t ∧ sent = Server.number 0 x.contents ++ more := by
  obtain ⟨-, -, hevents, -⟩ := ignored_iff_asks_nothing framedEvent emptyFolder
  obtain ⟨-, hevent⟩ := hevents lineEvent (by decide) document?_framedEvent
  obtain ⟨hiff, hserved, hresponses, hread⟩ := ignored_iff_asks_nothing framedResponse emptyFolder
  obtain ⟨hbody, hresponse⟩ := hresponses threadsResponse (by decide)
    (hread threadsResponse plain_threadsResponse)
  refine ⟨hevent.mpr ⟨_, _, rfl⟩, ?_, ?_⟩
  · intro hignored
    obtain ⟨name, body, hsame⟩ := hresponse.mp hignored
    cases hsame
  · have hserve : ∃ sent, ({} : Server).serve emptyFolder
        (incoming (framedResponse.bytes ++ [])) = some (sent, none) := by
      rw [incoming_of_body (readFrame_framed framedResponse []), hbody]
      exact ⟨_, rfl⟩
    obtain ⟨sent, hsent⟩ := hserve
    exact ⟨sent, hsent, hserved _ asks_framedResponse {} [] sent none rfl hsent⟩

/-- Not every message of another type than `request` is ignored. -/
theorem response_served_as_request :
    ¬ ∀ (f : FramedBody) (h : Host) (members : List (String × Json)) (type : String),
      document? f.body = some (.obj members) → valuesOf "type" members = [.str type] →
      type ≠ "request" → f.Ignored h := by
  intro hignores
  have hignored := hignores framedResponse emptyFolder _ "response" document?_framedResponse
    (by simp [valuesOf_cons, threadsResponse, Content.members, optionalMember]) (by decide)
  exact asks_nothing_of_ignored hignored _ asks_framedResponse

end Comet.Adapter
