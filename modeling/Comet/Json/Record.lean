import Comet.Json.Value

/-! Records in JSON, by the rules of derived readers. A record is written as an object, or as an
array of its fields in their order, which may leave out only fields at its end that have a default.
A field that may be null may be left out of an object. Unknown members are ignored. -/
namespace Comet.Json

inductive Record
  | named (members : List (String × Json))
  | positional (items : List Json)

namespace Record

/-- A value as a record of `size` fields. -/
def ofJson? (size : Nat) : Json → Option Record
  | .obj members => some (.named members)
  | .arr items => if items.length ≤ size then some (.positional items) else none
  | _ => none

def member? (r : Record) (position : Nat) (name : String) : Option Json :=
  match r with
  | named members => members.lookup name
  | positional items => items[position]?

variable {α : Type}

def field (r : Record) (position : Nat) (name : String) (read : Json → Option α) : Option α :=
  (r.member? position name).bind read

def fieldD (r : Record) (position : Nat) (name : String) (default : α) (read : Json → Option α) :
    Option α :=
  match r.member? position name with
  | some v => read v
  | none => some default

/-- A field that may be null, and that an object may leave out. -/
def field? (r : Record) (position : Nat) (name : String) (read : Json → Option α) :
    Option (Option α) :=
  match r, r.member? position name with
  | named _, none => some none
  | positional _, none => none
  | _, some .null => some none
  | _, some v => (read v).map some

end Record

end Comet.Json
