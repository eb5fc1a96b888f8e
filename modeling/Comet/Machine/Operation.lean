import Comet.Instruction.Mnemonic

namespace Comet

/-- The result, and whether it is out of the range of the operands: of signed numbers for `ADDA` and
`SUBA`, of numbers without a sign for `ADDL` and `SUBL`. -/
def Arithmetic.apply (op : Arithmetic) (a b : Word) : Word × Bool :=
  match op with
  | adda =>
    let sum := Word.signed a + Word.signed b
    (a + b, sum < -0x8000 || 0x8000 ≤ sum)
  | suba =>
    let difference := Word.signed a - Word.signed b
    (a - b, difference < -0x8000 || 0x8000 ≤ difference)
  | addl => (a + b, 0x10000 ≤ a.toNat + b.toNat)
  | subl => (a - b, a.toNat < b.toNat)

def Logic.apply (op : Logic) (a b : Word) : Word :=
  match op with
  | and => a &&& b
  | or => a ||| b
  | xor => a ^^^ b

/-- How the first word compares with the second. -/
def Comparison.apply (op : Comparison) (a b : Word) : Ordering :=
  match op with
  | cpa => compare (Word.signed a) (Word.signed b)
  | cpl => compare a.toNat b.toNat

/-- Shifts by one bit; the second part is the bit shifted out. An arithmetic shift leaves the sign
bit in its place, and one to the right copies it. -/
def Shift.once (op : Shift) (w : Word) : Word × Bool :=
  let n := w.toNat
  match op with
  | sla => (.ofNat (n / 0x8000 * 0x8000 + n * 2 % 0x8000), n / 0x4000 % 2 == 1)
  | sra => (.ofNat (n / 0x8000 * 0x8000 + n / 2), n % 2 == 1)
  | sll => (.ofNat (n * 2), n / 0x8000 == 1)
  | srl => (.ofNat (n / 2), n % 2 == 1)

/-- Shifts by `count` bits, one after the other, where `out` is the bit shifted out before. -/
def Shift.times (op : Shift) (w : Word) (out : Bool) : (count : Nat) → Word × Bool
  | 0 => (w, out)
  | count + 1 => op.times (op.once w).1 (op.once w).2 count

/-- The shifted word and the last bit shifted out. Sixteen bits are the most that are shifted. -/
def Shift.apply (op : Shift) (w : Word) (count : Word) : Word × Bool :=
  op.times w false (min count.toNat 16)

def Jump.taken (op : Jump) (overflow sign zero : Bool) : Bool :=
  match op with
  | jmi => sign
  | jnz => !zero
  | jze => zero
  | jump => true
  | jpl => !sign && !zero
  | jov => overflow

end Comet
