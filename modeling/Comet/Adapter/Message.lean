import Comet.Json.Printer
import Comet.Json.Value

/-! The messages of the debug adapter protocol: requests, responses and events in one envelope. They
are read by the rules of derived readers. The members of the content lie flat among those of the
envelope. The kinds have no tag: they are tried in their order, and the first one that fits is
taken, whatever the message says of its own type. A member that a kind names is not to be repeated,
members of other names are passed over, and a member that may be left out may also be null. -/
namespace Comet.Adapter

inductive Content
  | request (command : String) (arguments : Option Json)
  | response (requestSeq : Nat) (success : Bool) (command : String) (message : Option String)
      (body : Option Json)
  | event (name : String) (body : Option Json)
  deriving Repr, Inhabited

structure Message where
  seq : Nat
  type : String
  content : Content
  deriving Repr, Inhabited

open Json

/-- The values of the members of a name, as often as it is written. -/
def valuesOf (name : String) (members : List (String × Json)) : List Json :=
  (members.filter (·.1 == name)).map (·.2)

/-- A member that must be there, once. -/
def required? {α : Type} (name : String) (read : Json → Option α) (members : List (String × Json)) :
    Option α :=
  match valuesOf name members with
  | [v] => read v
  | _ => none

/-- A member that may be left out or null, but not be repeated. -/
def optional? {α : Type} (name : String) (read : Json → Option α) (members : List (String × Json)) :
    Option (Option α) :=
  match valuesOf name members with
  | [] | [.null] => some none
  | [v] => (read v).map some
  | _ => none

/-- Any value, with its objects put in order. -/
def any? (v : Json) : Option Json := some v.canonical

def request? (members : List (String × Json)) : Option Content := do
  let command ← required? "command" string? members
  let arguments ← optional? "arguments" any? members
  return .request command arguments

def response? (members : List (String × Json)) : Option Content := do
  let requestSeq ← required? "request_seq" nat? members
  let success ← required? "success" bool? members
  let command ← required? "command" string? members
  let message ← optional? "message" string? members
  let body ← optional? "body" any? members
  return .response requestSeq success command message body

def event? (members : List (String × Json)) : Option Content := do
  let name ← required? "event" string? members
  let body ← optional? "body" any? members
  return .event name body

/-- Whatever can be read as a request is one, whatever its type says; then come responses. -/
def content? (members : List (String × Json)) : Option Content :=
  (request? members).or ((response? members).or (event? members))

def Message.ofJson? : Json → Option Message
  | .obj members => do
    let seq ← required? "seq" nat? members
    let type ← required? "type" string? members
    let content ← content? members
    return { seq, type, content }
  | _ => none

/-- A member that is left out when it has no value. -/
def optionalMember (name : String) : Option Json → List (String × Json)
  | some v => [(name, v)]
  | none => []

def Content.members : Content → List (String × Json)
  | request command arguments => ("command", .str command) :: optionalMember "arguments" arguments
  | response requestSeq success command message body =>
    [("request_seq", .ofNat requestSeq), ("success", .bool success), ("command", .str command)] ++
      optionalMember "message" (message.map .str) ++ optionalMember "body" body
  | event name body => ("event", .str name) :: optionalMember "body" body

def Message.toJson (m : Message) : Json :=
  .obj (("seq", .ofNat m.seq) :: ("type", .str m.type) :: m.content.members)

end Comet.Adapter
