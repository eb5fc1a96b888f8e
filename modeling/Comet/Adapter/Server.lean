import Comet.Adapter.Arguments
import Comet.Adapter.Frame
import Comet.Debug.Session

namespace Comet.Adapter

open Json

/-- Why a request is refused. -/
inductive Refusal
  | unsupportedCommand (command : String)
  | invalidArguments (command : String)
  | session (e : Session.Error)
  deriving DecidableEq, Repr

def Refusal.message : Refusal → String
  | unsupportedCommand command => s!"unsupported command {command}"
  | invalidArguments command => s!"invalid arguments for {command}"
  | session e => e.message

structure Server where
  /-- Number of the last message sent. -/
  seq : Nat := 0
  session : Session := {}
  linesStartAt1 : Bool := true
  /-- The program that the client last asked to launch. -/
  program : Option String := none

/-- What a server needs from around it: an assembler, a way to read files, and a bound on the number
of line steps of one request. -/
structure Host where
  assembler : Assembler
  readText : Session.ReadText
  fuel : Nat

/-- A body to send back, or a refusal. -/
abbrev Answer := Except Refusal (Option Json)

namespace Server

def threadId : Nat := 1

def toClient (s : Server) (line : Nat) : Nat := if s.linesStartAt1 then line + 1 else line

/-- Lines before the first one are taken for the first. -/
def fromClient (s : Server) (line : Int) : Nat :=
  if s.linesStartAt1 then line.toNat - 1 else line.toNat

/-- Reads the arguments that a command must have. -/
def arguments {α : Type} (command : String) (read : Json → Option α) (v : Option Json) :
    Except Refusal α :=
  match v.bind read with
  | some a => .ok a
  | none => .error (.invalidArguments command)

/-- Reads the arguments that a command may have. -/
def argumentsD {α : Type} (command : String) (default : α) (read : Json → Option α)
    (v : Option Json) : Except Refusal α :=
  if v.isNone then .ok default else arguments command read v

def capabilities : Json :=
  object [("supportsConfigurationDoneRequest", .bool true),
    ("supportsEvaluateForHovers", .bool true),
    ("supportsStepBack", .bool false), ("supportsFunctionBreakpoints", .bool false),
    ("supportsConditionalBreakpoints", .bool false), ("supportsSetVariable", .bool false)]

def configure (s : Server) (v : Option Json) : Answer × Server :=
  match argumentsD "initialize" none linesStartAt1? v with
  | .error e => (.error e, s)
  | .ok base => (.ok (some capabilities), { s with linesStartAt1 := base.getD true })

/-- Takes over the session after a request, and its result as the answer. -/
def answerWith {α : Type} (s : Server) (body : α → Option Json)
    (reply : Except Session.Error α × Session) : Answer × Server :=
  (match reply.1 with
    | .ok a => .ok (body a)
    | .error e => .error (.session e), { s with session := reply.2 })

def launch (s : Server) (h : Host) (v : Option Json) : Option (Answer × Server) :=
  match arguments "launch" launch? v with
  | .error e => some (.error e, s)
  | .ok l =>
    (s.session.launch h.assembler h.readText l h.fuel).map
      ({ s with program := some l.program }.answerWith fun _ => none)

def breakpointJson (s : Server) (b : Breakpoint) : Json :=
  object [("id", .ofNat b.id), ("verified", .bool b.verified), ("line", .ofNat (s.toClient b.line))]

def setBreakpoints (s : Server) (h : Host) (v : Option Json) : Answer × Server :=
  match arguments "setBreakpoints" breakpoints? v with
  | .error e => (.error e, s)
  | .ok request => match request.path with
    | none => (.error (.invalidArguments "setBreakpoints"), s)
    | some path =>
      let (breakpoints, session) :=
        s.session.setBreakpoints h.readText path (request.lines.map s.fromClient)
      (.ok (some (object [("breakpoints", .arr (breakpoints.map s.breakpointJson))])),
        { s with session })

/-- The program as a client's editor finds it. -/
def source (s : Server) : Json :=
  match s.program with
  | none => .null
  | some path => object [("name", .str ((Path.fileName? path).getD path)), ("path", .str path)]

def frameJson (s : Server) (f : Session.FrameView) : Json :=
  object [("id", .ofNat f.id), ("name", .str f.name), ("line", .ofNat (s.toClient f.line)),
    ("column", .ofNat (if s.linesStartAt1 then 1 else 0)), ("source", s.source)]

def stackTrace (s : Server) (v : Option Json) : Answer :=
  (argumentsD "stackTrace" {} frameRange? v).map fun range =>
    let trace := s.session.stackTrace (range.start.getD 0) range.levels
    some (object [("stackFrames", .arr (trace.frames.map s.frameJson)),
      ("totalFrames", .ofNat trace.totalFrames)])

def scopes : Json :=
  object [("scopes", .arr (Session.scopes.map fun scope =>
    object [("name", .str scope.name), ("variablesReference", .ofInt scope.reference),
      ("expensive", .bool false)]))]

def threads : Json :=
  object [("threads", .arr [object [("id", .ofNat threadId), ("name", .str "COMET II")]])]

def variablesIn (s : Server) (v : Option Json) : Answer :=
  (arguments "variables" variablesReference? v).map fun reference =>
    some (object [("variables", .arr ((s.session.variablesIn reference).map fun v =>
      object [("name", .str v.name), ("value", .str v.value), ("type", .str v.typeName),
        ("variablesReference", .ofNat 0)]))])

def evaluationJson : Session.Evaluation → Json
  | .inputAccepted => object [("result", .str ""), ("variablesReference", .ofNat 0)]
  | .value v => object [("result", .str v.value), ("type", .str v.typeName),
      ("variablesReference", .ofNat 0)]

def evaluate (s : Server) (h : Host) (v : Option Json) : Option (Answer × Server) :=
  match arguments "evaluate" evaluate? v with
  | .error e => some (.error e, s)
  | .ok request =>
    (s.session.evaluate request.expression (.ofName request.context) h.fuel).map
      (s.answerWith fun e => some (evaluationJson e))

/-- What a command does. The body of a response depends on the command alone where the command
only goes on. -/
def perform (s : Server) (h : Host) (command : String) (v : Option Json) :
    Option (Answer × Server) :=
  match command with
  | "initialize" => some (s.configure v)
  | "launch" => s.launch h v
  | "setBreakpoints" => some (s.setBreakpoints h v)
  | "configurationDone" => some (.ok none, s)
  | "threads" => some (.ok (some threads), s)
  | "stackTrace" => some (s.stackTrace v, s)
  | "scopes" => some (.ok (some scopes), s)
  | "variables" => some (s.variablesIn v, s)
  | "continue" => (s.session.run h.fuel).map
      (s.answerWith fun _ => some (object [("allThreadsContinued", .bool true)]))
  | "next" => (s.session.next h.fuel).map (s.answerWith fun _ => none)
  | "stepIn" => (s.session.stepIn h.fuel).map (s.answerWith fun _ => none)
  | "stepOut" => (s.session.stepOut h.fuel).map (s.answerWith fun _ => none)
  | "evaluate" => s.evaluate h v
  | "disconnect" => some (.ok none, s)
  | _ => some (.error (.unsupportedCommand command), s)

/-- The one file that a command may look at. -/
def pathOf? (command : String) (v : Option Json) : Option String :=
  match command with
  | "launch" => (v.bind launch?).map (·.program)
  | "setBreakpoints" => (v.bind breakpoints?).bind (·.path)
  | _ => none

/-- Reading that one file is all that a command needs of the files around it. -/
theorem perform_readText (s : Server) (h : Host) (read : Session.ReadText) (command : String)
    (v : Option Json)
    (hread : ∀ path, pathOf? command v = some path → read path = h.readText path) :
    s.perform { h with readText := read } command v = s.perform h command v := by
  unfold perform
  split <;> try rfl
  · simp only [pathOf?, Option.map_eq_some_iff] at hread
    simp only [launch, arguments]
    cases hv : v.bind launch? with
    | none => rfl
    | some l => simp [Session.launch, hread l.program ⟨l, hv, rfl⟩]
  · simp only [pathOf?] at hread
    simp only [setBreakpoints, arguments]
    cases hv : v.bind breakpoints? with
    | none => rfl
    | some request =>
      cases hp : request.path with
      | none => simp [hp]
      | some path => simp [hp, Session.setBreakpoints, hread path (by simp [hv, hp])]

def stoppedBody (reason : Session.StopReason) (description : Option String) : Json :=
  let detail := match description with
    | some text => [("description", .str text), ("text", .str text)]
    | none => []
  object ([("reason", .str reason.name), ("threadId", .ofNat threadId),
    ("allThreadsStopped", .bool true)] ++ detail)

def eventContent : Session.Event → Content
  | .stopped reason description => .event "stopped" (some (stoppedBody reason description))
  | .terminated => .event "terminated" none
  | .output category text => .event "output"
      (some (object [("category", .str category.name), ("output", .str text)]))

def responseContent (requestSeq : Nat) (command : String) : Answer → Content
  | .ok body => .response requestSeq true command none body
  | .error e => .response requestSeq false command (some e.message) none

def messageType : Content → String
  | .request .. => "request"
  | .response .. => "response"
  | .event .. => "event"

/-- Messages are numbered one after the other. -/
def number (seq : Nat) : List Content → List Message
  | [] => []
  | c :: rest => ⟨seq + 1, messageType c, c⟩ :: number (seq + 1) rest

def send (s : Server) (contents : List Content) : List Message × Server :=
  (number s.seq contents, { s with seq := s.seq + contents.length })

/-- Answers one request. After `disconnect` the server is done, and events still waiting are not
sent. -/
def handle (s : Server) (h : Host) (requestSeq : Nat) (command : String) (v : Option Json) :
    Option (List Message × Server) :=
  (s.perform h command v).map fun (answer, s) =>
    let response := responseContent requestSeq command answer
    if command = "disconnect" then s.send [response]
    else
      let initialized := match command, answer with
        | "initialize", .ok _ => [.event "initialized" none]
        | _, _ => []
      let (events, session) := s.session.takeEvents
      { s with session }.send (response :: initialized ++ events.map eventContent)

/-- Answers requests until the client disconnects or nothing more can be read. Everything that is
no request is ignored. The answer holds what was sent and why the stream failed, if it did. -/
def serve (s : Server) (h : Host) : List Incoming → Option (List Message × Option StreamError)
  | [] => some ([], none)
  | .failed e :: _ => some ([], some e)
  | .malformed :: rest => s.serve h rest
  | .message m :: rest =>
    match m.content with
    | .request command v => match s.handle h m.seq command v with
      | none => none
      | some (sent, s) =>
        if command = "disconnect" then some (sent, none)
        else (s.serve h rest).map fun (more, e) => (sent ++ more, e)
    | _ => s.serve h rest

/-- How it goes on once something has been received. -/
inductive Reception
  | going (s : Server)
  | over (failure : Option StreamError)

/-- Answers what has been received: what is sent, and how it goes on. -/
def receive (s : Server) (h : Host) : Incoming → Option (List Message × Reception)
  | .failed e => some ([], .over (some e))
  | .malformed => some ([], .going s)
  | .message m => match m.content with
    | .request command v => (s.handle h m.seq command v).map fun (sent, s) =>
        (sent, if command = "disconnect" then .over none else .going s)
    | _ => some ([], .going s)

/-- Serving is to receive one thing after the other. -/
theorem serve_cons (s : Server) (h : Host) (i : Incoming) (rest : List Incoming) :
    s.serve h (i :: rest) = (s.receive h i).bind fun
      | (sent, .over failure) => some (sent, failure)
      | (sent, .going s) => (s.serve h rest).map fun (more, e) => (sent ++ more, e) := by
  have hsame (answer : Option (List Message × Option StreamError)) :
      answer.map (fun (more, e) => ([] ++ more, e)) = answer := by
    cases answer <;> rfl
  cases i with
  | failed e => rfl
  | malformed => exact (hsame (s.serve h rest)).symm
  | message m =>
    rw [serve, receive]
    cases m.content with
    | response | event => exact (hsame (s.serve h rest)).symm
    | request command v =>
      simp only
      cases s.handle h m.seq command v with
      | none => rfl
      | some answer =>
        simp only [Option.map_some, Option.bind_some]
        split <;> rfl

end Server

/-- The one file that the answer depends on, if it does on any. -/
def Incoming.path? : Incoming → Option String
  | message ⟨_, _, .request command v⟩ => Server.pathOf? command v
  | _ => none

theorem Server.receive_readText (s : Server) (h : Host) (read : Session.ReadText) (i : Incoming)
    (hread : ∀ path, i.path? = some path → read path = h.readText path) :
    s.receive { h with readText := read } i = s.receive h i := by
  cases i with
  | failed | malformed => rfl
  | message m =>
    obtain ⟨seq, type, content⟩ := m
    cases content with
    | response | event => rfl
    | request command v =>
      have hperform := s.perform_readText h read command v hread
      simp only [receive, handle, hperform]

end Comet.Adapter
