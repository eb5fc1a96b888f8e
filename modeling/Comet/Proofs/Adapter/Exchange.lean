import Comet.Proofs.Adapter.Command

namespace Comet.Adapter

/-- A request with its answer and the events that it leads to, oldest first. -/
structure Exchange where
  request : ClientRequest
  answer : Answer
  events : List Session.Event

def Incoming.request? : Incoming → Option ClientRequest
  | .message { seq, content := .request command v, .. } => some ⟨seq, command, v⟩
  | _ => none

def Incoming.failure? : Incoming → Option StreamError
  | .failed e => some e
  | _ => none

/-- Nothing is read behind a client's `disconnect` or behind a failure of the stream. -/
def Incoming.isLast (i : Incoming) : Bool :=
  match i.request? with
  | some r => decide (r.command = "disconnect")
  | none => i.failure?.isSome

/-- The part of a stream that is read. -/
def consumed : List Incoming → List Incoming
  | [] => []
  | i :: rest => if i.isLast then [i] else i :: consumed rest

/-- The requests of a stream, up to and with the first `disconnect`. -/
def requests (stream : List Incoming) : List ClientRequest :=
  (consumed stream).filterMap Incoming.request?

/-- Why a stream could not be read to its end, or to the first `disconnect`. -/
def failure? (stream : List Incoming) : Option StreamError :=
  (consumed stream).findSome? Incoming.failure?

section streams

variable {i : Incoming} {rest : List Incoming}

@[simp] theorem requests_nil : requests [] = [] := rfl

@[simp] theorem failure?_nil : failure? [] = none := rfl

theorem requests_cons :
    requests (i :: rest) = i.request?.toList ++ if i.isLast then [] else requests rest := by
  cases hlast : i.isLast <;> cases hrequest : i.request? <;>
    simp [requests, consumed, hlast, hrequest]

theorem failure?_cons :
    failure? (i :: rest) = i.failure?.or (if i.isLast then none else failure? rest) := by
  cases hlast : i.isLast <;> cases hfailure : i.failure? <;>
    simp [failure?, consumed, hlast, hfailure]

theorem Incoming.failure?_of_request? {r : ClientRequest} (h : i.request? = some r) :
    i.failure? = none := by
  cases i with
  | failed e => cases h
  | message | malformed => rfl

end streams

namespace Exchange

/-- The client is told that the server is ready once it has been configured. -/
def initialized (x : Exchange) : List Content :=
  match x.request.command, x.answer with
  | "initialize", .ok _ => [.event "initialized" none]
  | _, _ => []

/-- What is sent: one response, and the events. -/
def contents (x : Exchange) : List Content :=
  Server.responseContent x.request.seq x.request.command x.answer ::
    (x.initialized ++ x.events.map Server.eventContent)

end Exchange

namespace Server

/-- The server with another number of messages sent and other events waiting. -/
def withOutgoing (s : Server) (seq : Nat) (waiting : Array Session.Event) : Server :=
  { s with seq, session := { s.session with events := waiting } }

/-- The request of the exchange leads from one server to the other, with the answer and the events
of the exchange. How many messages have been sent plays no part in this, nor does what waits to be
sent: the events are put behind whatever is there. -/
def Performs (h : Host) (s : Server) (x : Exchange) (t : Server) : Prop :=
  ∀ seq waiting, (s.withOutgoing seq waiting).perform h x.request.command x.request.arguments =
    some (x.answer, t.withOutgoing seq (waiting ++ x.events.toArray))

/-- Each exchange begins with the server that the one before it has left. -/
inductive Exchanges (h : Host) : Server → List Exchange → Prop
  | nil (s : Server) : Exchanges h s []
  | cons {s t : Server} {x : Exchange} {xs : List Exchange} (hfirst : s.Performs h x t)
      (hrest : Exchanges h t xs) : Exchanges h s (x :: xs)

section performs

variable {h : Host} {s t : Server} {x : Exchange} {n : Nat} {command : String}
  {v : Option Json} {answer : Answer} {waiting : Array Session.Event}

/-- The server with more events waiting, older than its own. -/
def behind (s : Server) (seq : Nat) (waiting : Array Session.Event) : Server :=
  { s with seq, session := s.session.behind waiting }

theorem map_answerWith_behind {α : Type}
    {request : Session → Option (Except Session.Error α × Session)}
    (hframed : Session.Framed request) (body : α → Option Json) (s : Server) (n : Nat)
    (waiting : Array Session.Event) :
    (request (s.behind n waiting).session).map ((s.behind n waiting).answerWith body) =
      ((request s.session).map (s.answerWith body)).map fun (answer, t) =>
        (answer, t.behind n waiting) := by
  simp only [behind, hframed s.session waiting, Option.map_map]
  rfl

theorem perform_behind (s : Server) (h : Host) (n : Nat) (waiting : Array Session.Event)
    (r : ClientRequest) :
    (s.behind n waiting).perform h r.command r.arguments =
      (s.perform h r.command r.arguments).map fun (answer, t) => (answer, t.behind n waiting) := by
  obtain ⟨f, heffect, hf⟩ := perform_effect h r
  rw [hf, hf]
  cases heffect with
  | told | configured | listed | marked | traced => rfl
  | asked hplain q request hframed hafter body =>
    exact map_answerWith_behind hframed body s n waiting
  | launched l =>
    have hframed := Session.launch_framed h.assembler h.readText l h.fuel
    exact map_answerWith_behind hframed _ { s with program := some l.program } n waiting

/-- A request that has been performed with no event waiting leads to the events that it leaves. -/
theorem performs_of_perform (hempty : s.session.events = #[])
    (hperform : s.perform h command v = some (answer, t)) :
    s.Performs h ⟨⟨n, command, v⟩, answer, t.session.events.toList⟩ t := by
  intro seq waiting
  have hbehind : s.withOutgoing seq waiting = s.behind seq waiting := by
    simp [withOutgoing, behind, Session.behind, hempty]
  rw [hbehind, perform_behind, hperform]
  rfl

theorem Performs.perform (hperforms : s.Performs h x t) (hempty : s.session.events = #[]) :
    s.perform h x.request.command x.request.arguments =
      some (x.answer, t.withOutgoing s.seq x.events.toArray) := by
  have hself : s.withOutgoing s.seq #[] = s := by rw [withOutgoing, ← hempty]
  have hperform := hperforms s.seq #[]
  rwa [hself, Array.empty_append] at hperform

theorem performs_withOutgoing_iff :
    (s.withOutgoing n waiting).Performs h x t ↔ s.Performs h x t := Iff.rfl

theorem exchanges_withOutgoing_iff {xs : List Exchange} :
    Exchanges h (s.withOutgoing n waiting) xs ↔ Exchanges h s xs := by
  constructor
  · intro hxs
    cases xs with
    | nil => exact .nil s
    | cons x xs =>
      cases hxs with
      | cons hfirst hrest => exact .cons (performs_withOutgoing_iff.mp hfirst) hrest
  · intro hxs
    cases hxs with
    | nil => exact .nil _
    | cons hfirst hrest => exact .cons (performs_withOutgoing_iff.mpr hfirst) hrest

end performs

section messages

theorem number_append (n : Nat) (xs ys : List Content) :
    number n (xs ++ ys) = number n xs ++ number (n + xs.length) ys := by
  induction xs generalizing n with
  | nil => rfl
  | cons c xs ih => simp [number, ih, Nat.add_assoc, Nat.add_comm 1]

end messages

section runs

variable {h : Host} {s t u : Server} {x : Exchange} {stream : List Incoming} {sent : List Message}

theorem Performs.of_disconnect (hperforms : s.Performs h x t) (hempty : s.session.events = #[])
    (hlast : x.request.command = "disconnect") :
    x.contents = [responseContent x.request.seq x.request.command x.answer] ∧ x.events = [] := by
  have hperform := hperforms.perform hempty
  rw [hlast] at hperform
  simp only [Server.perform, Option.some.injEq, Prod.mk.injEq] at hperform
  obtain ⟨hanswer, hsame⟩ := hperform
  have hevents : x.events = [] := by
    have hqueue := congrArg (·.session.events) hsame
    simpa [withOutgoing, hempty] using hqueue.symm
  refine ⟨?_, hevents⟩
  simp [Exchange.contents, Exchange.initialized, ← hanswer, hlast, hevents]

theorem handle_of_performs (hempty : s.session.events = #[]) (hperforms : s.Performs h x t) :
    s.handle h x.request.seq x.request.command x.request.arguments =
      some (number s.seq x.contents, t.withOutgoing (s.seq + x.contents.length) #[]) := by
  rw [handle, hperforms.perform hempty]
  simp only [Option.map_some]
  by_cases hlast : x.request.command = "disconnect"
  · obtain ⟨hcontents, hnone⟩ := hperforms.of_disconnect hempty hlast
    rw [if_pos hlast, hcontents, hnone]
    rfl
  · rw [if_neg hlast]
    rfl

/-- A request is answered by an exchange, and afterwards no event waits. -/
theorem handle_eq_some_iff (hempty : s.session.events = #[]) {r : ClientRequest} :
    s.handle h r.seq r.command r.arguments = some (sent, u) ↔
      ∃ x t, x.request = r ∧ s.Performs h x t ∧ sent = number s.seq x.contents ∧
        u = t.withOutgoing (s.seq + x.contents.length) #[] := by
  constructor
  · intro hhandle
    obtain ⟨⟨answer, t⟩, hperform, -⟩ := Option.map_eq_some_iff.mp hhandle
    have hperforms : s.Performs h ⟨r, answer, t.session.events.toList⟩ t :=
      performs_of_perform hempty hperform
    have hsent := handle_of_performs hempty hperforms
    rw [hhandle, Option.some.injEq, Prod.mk.injEq] at hsent
    exact ⟨_, t, rfl, hperforms, hsent.1, hsent.2⟩
  · rintro ⟨x, t, rfl, hperforms, rfl, rfl⟩
    exact handle_of_performs hempty hperforms

/-- What is no request and no failure is passed over. -/
theorem serve_of_ignored {i : Incoming} (hrequest : i.request? = none)
    (hfailure : i.failure? = none) : s.serve h (i :: stream) = s.serve h stream := by
  cases i with
  | failed e => cases hfailure
  | malformed => rfl
  | message m =>
    obtain ⟨n, type, content⟩ := m
    cases content with
    | request command v => cases hrequest
    | response | event => rfl

theorem serve_of_failed {i : Incoming} {e : StreamError} (hfailure : i.failure? = some e) :
    s.serve h (i :: stream) = some ([], some e) := by
  cases i with
  | failed e' =>
    cases hfailure
    rfl
  | message | malformed => cases hfailure

theorem serve_request {i : Incoming} {r : ClientRequest} (hrequest : i.request? = some r) :
    s.serve h (i :: stream) = (s.handle h r.seq r.command r.arguments).bind fun (sent, u) =>
      if r.command = "disconnect" then some (sent, none)
      else (u.serve h stream).map fun (more, e) => (sent ++ more, e) := by
  cases i with
  | failed | malformed => cases hrequest
  | message m =>
    obtain ⟨n, type, content⟩ := m
    cases content with
    | response | event => cases hrequest
    | request command v =>
      cases hrequest
      rw [serve]
      simp only
      cases s.handle h n command v <;> rfl

/-- A request is answered, and the rest of the stream, unless the client disconnects, by the server
that is left. -/
theorem serve_request_eq_some_iff (hempty : s.session.events = #[]) {i : Incoming}
    {r : ClientRequest} (hrequest : i.request? = some r) {failure : Option StreamError} :
    s.serve h (i :: stream) = some (sent, failure) ↔ ∃ x t, x.request = r ∧ s.Performs h x t ∧
      if r.command = "disconnect" then sent = number s.seq x.contents ∧ failure = none
      else ∃ more, sent = number s.seq x.contents ++ more ∧
        (t.withOutgoing (s.seq + x.contents.length) #[]).serve h stream = some (more, failure) := by
  rw [serve_request hrequest, Option.bind_eq_some_iff]
  by_cases hleaves : r.command = "disconnect"
  · simp only [if_pos hleaves, Option.some.injEq, Prod.mk.injEq]
    constructor
    · rintro ⟨⟨first, u⟩, hhandle, rfl, rfl⟩
      obtain ⟨x, t, hx, hperforms, rfl, -⟩ := (handle_eq_some_iff hempty).mp hhandle
      exact ⟨x, t, hx, hperforms, rfl, rfl⟩
    · rintro ⟨x, t, rfl, hperforms, rfl, rfl⟩
      exact ⟨_, handle_of_performs hempty hperforms, rfl, rfl⟩
  · simp only [if_neg hleaves]
    constructor
    · rintro ⟨⟨first, u⟩, hhandle, hrest⟩
      obtain ⟨x, t, hx, hperforms, rfl, rfl⟩ := (handle_eq_some_iff hempty).mp hhandle
      obtain ⟨⟨more, e⟩, hmore, hsame⟩ := Option.map_eq_some_iff.mp hrest
      simp only [Prod.mk.injEq] at hsame
      obtain ⟨rfl, rfl⟩ := hsame
      exact ⟨x, t, hx, hperforms, more, rfl, hmore⟩
    · rintro ⟨x, t, rfl, hperforms, more, rfl, hmore⟩
      refine ⟨_, handle_of_performs hempty hperforms, ?_⟩
      simp only [hmore, Option.map_some]

/-- Without a request nothing is sent, whether the stream ends or fails. -/
theorem nothing_sent_iff {failure failed : Option StreamError} :
    some (([] : List Message), failed) = some (sent, failure) ↔ failure = failed ∧
      ∃ xs : List Exchange, xs = [] ∧ Exchanges h s xs ∧
        sent = number s.seq (xs.flatMap Exchange.contents) := by
  simp only [Option.some.injEq, Prod.mk.injEq]
  constructor
  · rintro ⟨rfl, rfl⟩
    exact ⟨rfl, [], rfl, .nil s, rfl⟩
  · rintro ⟨rfl, xs, rfl, -, rfl⟩
    exact ⟨rfl, rfl⟩

theorem serve_eq_some_iff (hempty : s.session.events = #[]) {failure : Option StreamError} :
    s.serve h stream = some (sent, failure) ↔ failure = failure? stream ∧
      ∃ xs, xs.map (·.request) = requests stream ∧ Exchanges h s xs ∧
        sent = number s.seq (xs.flatMap Exchange.contents) := by
  induction stream generalizing s sent failure with
  | nil =>
    simpa only [serve, requests_nil, failure?_nil, List.map_eq_nil_iff] using nothing_sent_iff
  | cons i rest ih =>
    rw [requests_cons, failure?_cons]
    cases hrequest : i.request? with
    | none =>
      cases hfailure : i.failure? with
      | none =>
        have hlast : i.isLast = false := by simp [Incoming.isLast, hrequest, hfailure]
        rw [serve_of_ignored hrequest hfailure, ih hempty]
        simp [hlast]
      | some e =>
        have hlast : i.isLast = true := by simp [Incoming.isLast, hrequest, hfailure]
        rw [serve_of_failed hfailure]
        simpa [hlast] using nothing_sent_iff
    | some r =>
      have hlast : i.isLast = decide (r.command = "disconnect") := by
        simp [Incoming.isLast, hrequest]
      rw [serve_request_eq_some_iff hempty hrequest, Incoming.failure?_of_request? hrequest, hlast]
      simp only [Option.toList_some, List.cons_append, List.nil_append, Option.none_or,
        decide_eq_true_eq]
      by_cases hleaves : r.command = "disconnect"
      · simp only [if_pos hleaves]
        constructor
        · rintro ⟨x, t, rfl, hperforms, rfl, rfl⟩
          exact ⟨rfl, [x], rfl, .cons hperforms (.nil t), by simp⟩
        · rintro ⟨rfl, xs, hxs, hexchanges, rfl⟩
          obtain ⟨x, rfl, rfl⟩ := List.map_eq_singleton_iff.mp hxs
          cases hexchanges with
          | cons hperforms => exact ⟨x, _, rfl, hperforms, by simp, rfl⟩
      · simp only [if_neg hleaves]
        constructor
        · rintro ⟨x, t, rfl, hperforms, more, rfl, hmore⟩
          obtain ⟨hfailure, xs, hxs, hexchanges, rfl⟩ := (ih rfl).mp hmore
          refine ⟨hfailure, x :: xs, by rw [List.map_cons, hxs],
            .cons hperforms (exchanges_withOutgoing_iff.mp hexchanges), ?_⟩
          rw [List.flatMap_cons, number_append]
          rfl
        · rintro ⟨hfailure, xs, hxs, hexchanges, rfl⟩
          obtain ⟨x, xs, rfl, rfl, hrest⟩ := List.map_eq_cons_iff.mp hxs
          cases hexchanges with
          | @cons _ t _ _ hperforms hexchanges =>
            refine ⟨x, t, rfl, hperforms, _, ?_, (ih rfl).mpr
              ⟨hfailure, xs, hrest, exchanges_withOutgoing_iff.mpr hexchanges, rfl⟩⟩
            rw [List.flatMap_cons, number_append]
            rfl

end runs

end Server

end Comet.Adapter
