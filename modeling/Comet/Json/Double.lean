/-! Decimal text of a double: the fewest digits that read back as the same double, of those the
nearest to it. -/
namespace Comet.Json

/-- The number `mantissa * 2 ^ exponent` that a finite double stands for. -/
structure Binary where
  mantissa : Nat
  exponent : Int
  /-- The next smaller double is half as far away as the next larger one. -/
  atPower : Bool

def Binary.ofBits (bits : UInt64) : Binary :=
  let fraction : Nat := bits.toNat % 0x10000000000000
  let field : Nat := bits.toNat / 0x10000000000000 % 0x800
  if field = 0 then ⟨fraction, -1074, false⟩
  else ⟨0x10000000000000 + fraction, (field : Int) - 1075, fraction == 0 && field != 1⟩

/-- `digits * 10 ^ exponent`. -/
structure Decimal where
  digits : Nat
  exponent : Int

/-- A multiple of `10 ^ k` that reads back as `b`, if there is one: of the two multiples around `b`
the nearer. All quantities are compared as multiples of a quarter of the last binary place. -/
def Binary.onGrid? (b : Binary) (k : Int) : Option Decimal :=
  let q := b.exponent - 2
  let unit := Nat.pow 2 q.toNat * Nat.pow 10 (-k).toNat
  let step := Nat.pow 2 (-q).toNat * Nat.pow 10 k.toNat
  let value := 4 * b.mantissa * unit
  let low := (4 * b.mantissa - if b.atPower then 1 else 2) * unit
  let high := (4 * b.mantissa + 2) * unit
  let readsBack (d : Nat) : Bool :=
    if b.mantissa % 2 = 0 then low ≤ d * step && d * step ≤ high
    else low < d * step && d * step < high
  let d := value / step
  let nearer := if 2 * value ≤ (2 * d + 1) * step then [d, d + 1] else [d + 1, d]
  (nearer.find? fun d => d != 0 && readsBack d).map (⟨·, k⟩)

/-- Tries coarser grids first. -/
def Binary.shortestFrom (b : Binary) (k : Int) : Nat → Decimal
  | 0 => ⟨0, 0⟩
  | fuel + 1 => match b.onGrid? k with
    | some d => d
    | none => shortestFrom b (k - 1) fuel

/-- No double is larger than `10 ^ 309` and none has digits below `10 ^ -1074`. -/
def Binary.shortest (b : Binary) : Decimal := b.shortestFrom 309 1384

/-- Positional up to sixteen places before the point and four zeros behind it, with at least one
digit on both sides of the point; otherwise with an exponent. -/
def Decimal.text (d : Decimal) : String :=
  let digits := (toString d.digits).toList
  let point := (digits.length : Int) + d.exponent
  let zeros (n : Int) : List Char := .replicate n.toNat '0'
  let chars :=
    if 0 ≤ d.exponent ∧ point ≤ 16 then digits ++ zeros d.exponent ++ ['.', '0']
    else if 0 < point ∧ point ≤ 16 then
      digits.take point.toNat ++ '.' :: digits.drop point.toNat
    else if -5 < point ∧ point ≤ 0 then '0' :: '.' :: (zeros (-point) ++ digits)
    else
      let fraction := if digits.length = 1 then [] else '.' :: digits.drop 1
      digits.take 1 ++ fraction ++ 'e' :: (toString (point - 1)).toList
  .ofList chars

def doubleText (bits : UInt64) : String :=
  let b := Binary.ofBits bits
  let sign := if bits.toNat < 0x8000000000000000 then "" else "-"
  sign ++ (if b.mantissa = 0 then "0.0" else b.shortest.text)

end Comet.Json
