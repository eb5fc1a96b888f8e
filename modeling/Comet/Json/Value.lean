/-! JSON values. An object that has just been read keeps its members as they were written, repeated
names included, so that a message can refuse them. In an object that is kept as a value the members
are in the order of their names, and of repeated names the last one counts. -/
namespace Comet

inductive Json.Number
  | int (n : Int)
  /-- A number with a fraction or an exponent, or too large for an integer: the bits of a double. -/
  | double (bits : UInt64)
  deriving DecidableEq, Repr, Inhabited

inductive Json
  | null
  | bool (b : Bool)
  | num (n : Json.Number)
  | str (s : String)
  | arr (items : List Json)
  | obj (members : List (String × Json))
  deriving Repr, Inhabited

namespace Json

def ofNat (n : Nat) : Json := .num (.int n)

def ofInt (n : Int) : Json := .num (.int n)

/-- Puts a member in its place by name; it takes the place of one of the same name. -/
def insertMember (name : String) (value : Json) : List (String × Json) → List (String × Json)
  | [] => [(name, value)]
  | (n, v) :: rest =>
    if name < n then (name, value) :: (n, v) :: rest
    else if name = n then (name, value) :: rest
    else (n, v) :: insertMember name value rest

/-- An object with its members in the order of their names; of repeated names the last counts. -/
def object (members : List (String × Json)) : Json :=
  .obj (members.foldl (fun sorted m => insertMember m.1 m.2 sorted) [])

mutual

/-- The value with every object in it put in order. -/
def canonical : Json → Json
  | .arr items => .arr (canonicalItems items)
  | .obj members => object (canonicalMembers members)
  | v => v

def canonicalItems : List Json → List Json
  | [] => []
  | v :: rest => canonical v :: canonicalItems rest

def canonicalMembers : List (String × Json) → List (String × Json)
  | [] => []
  | (name, v) :: rest => (name, canonical v) :: canonicalMembers rest

end

/-- The member of that name of an object; the last one if it is repeated. -/
def member? (name : String) : Json → Option Json
  | .obj members => members.reverse.lookup name
  | _ => none

def string? : Json → Option String
  | .str s => some s
  | _ => none

def bool? : Json → Option Bool
  | .bool b => some b
  | _ => none

def int? : Json → Option Int
  | .num (.int n) => some n
  | _ => none

/-- A number of 64 bits without a sign. -/
def nat? : Json → Option Nat
  | .num (.int (.ofNat n)) => if n < 0x10000000000000000 then some n else none
  | _ => none

/-- A number of 64 bits with a sign. -/
def int64? (v : Json) : Option Int :=
  v.int?.filter fun n => -0x8000000000000000 ≤ n ∧ n < 0x8000000000000000

def array? : Json → Option (List Json)
  | .arr items => some items
  | _ => none

end Json

end Comet
