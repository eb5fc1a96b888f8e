import Comet.Text.Numeral

namespace Comet

abbrev Word := UInt16

/-- Number of words of memory. -/
def memorySize : Nat := 0x10000

namespace Word

/-- The word as four upper-case hexadecimal digits. -/
def hex (w : Word) : String :=
  let n := w.toNat
  .ofList [Text.hexDigit (n / 4096), Text.hexDigit (n / 256 % 16), Text.hexDigit (n / 16 % 16),
    Text.hexDigit (n % 16)]

/-- A character is stored as the low sixteen bits of its code point. -/
def ofChar (c : Char) : Word := .ofNat c.toNat

/-- Half of a surrogate pair is no character and is shown as a question mark. -/
def toChar (w : Word) : Char :=
  if h : w.toNat.isValidChar then Char.ofNatAux w.toNat h else '?'

/-- The value as a two's complement number. -/
def signed (w : Word) : Int := if w.toNat < 0x8000 then w.toNat else (w.toNat : Int) - 0x10000

/-- The sign bit. -/
def isNegative (w : Word) : Bool := 0x8000 ≤ w.toNat

end Word

end Comet
