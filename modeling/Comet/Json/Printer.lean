import Comet.Json.Double
import Comet.Json.Value
import Comet.Text.Numeral

/-! JSON text without white space. Only what must be escaped is escaped. -/
namespace Comet.Json

def lowerHexDigit (n : Nat) : Char := (Text.hexDigit n).toLower

def escapeChar (c : Char) : List Char :=
  if c = '"' then ['\\', '"']
  else if c = '\\' then ['\\', '\\']
  else if c = '\n' then ['\\', 'n']
  else if c = '\r' then ['\\', 'r']
  else if c = '\t' then ['\\', 't']
  else if c.toNat = 8 then ['\\', 'b']
  else if c.toNat = 12 then ['\\', 'f']
  else if c.toNat < 32 then
    ['\\', 'u', '0', '0', lowerHexDigit (c.toNat / 16), lowerHexDigit (c.toNat % 16)]
  else [c]

def stringText (s : String) : String :=
  .ofList ('"' :: (s.toList.flatMap escapeChar ++ ['"']))

def Number.text : Number → String
  | .int n => toString n
  | .double bits => doubleText bits

mutual

/-- Appends the text of a value. -/
def write (out : String) : Json → String
  | .null => out ++ "null"
  | .bool b => out ++ if b then "true" else "false"
  | .num n => out ++ n.text
  | .str s => out ++ stringText s
  | .arr items => writeItems (out ++ "[") true items ++ "]"
  | .obj members => writeMembers (out ++ "\x7b") true members ++ "\x7d"

def writeItems (out : String) (first : Bool) : List Json → String
  | [] => out
  | v :: rest => writeItems (write (if first then out else out ++ ",") v) false rest

def writeMembers (out : String) (first : Bool) : List (String × Json) → String
  | [] => out
  | (name, v) :: rest =>
    let out := if first then out else out ++ ","
    writeMembers (write (out ++ stringText name ++ ":") v) false rest

end

def text (v : Json) : String := write "" v

end Comet.Json
