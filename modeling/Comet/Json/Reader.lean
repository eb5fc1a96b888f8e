import Comet.Json.Value
import Comet.Text.Numeral

/-! Reading JSON text by the rules of a strict library. White space is the four blanks of JSON, no
comma stands behind the last item or member, and behind the value there is nothing but white space.
Strings hold no control characters and no half of a surrogate pair. Arrays and objects are nested up
to a limit only. A number is an integer of 64 bits if it is written as one and fits; otherwise it is
a double, which need not be the nearest to the numeral, and is refused if it is not finite. -/
namespace Comet.Json

def skipBlanks (cs : List Char) : List Char :=
  cs.dropWhile fun c => c = ' ' || c = '\n' || c = '\t' || c = '\r'

def escaped? : Char → Option Char
  | '"' => some '"'
  | '\\' => some '\\'
  | '/' => some '/'
  | 'b' => some (.ofNat 8)
  | 'f' => some (.ofNat 12)
  | 'n' => some '\n'
  | 'r' => some '\r'
  | 't' => some '\t'
  | _ => none

def unit? (a b c d : Char) : Option Nat := Text.digitsValue? 16 0 [a, b, c, d]

/-- Reads a string from behind its opening quote; `reversed` has been read already. -/
def stringRest (reversed : List Char) : List Char → Option (String × List Char)
  | [] => none
  | '"' :: cs => some (.ofList reversed.reverse, cs)
  | '\\' :: 'u' :: a :: b :: c :: d :: cs =>
    match unit? a b c d with
    | none => none
    | some high =>
      if 0xDC00 ≤ high ∧ high ≤ 0xDFFF then none
      else if 0xD800 ≤ high ∧ high ≤ 0xDBFF then
        match cs with
        | '\\' :: 'u' :: a :: b :: c :: d :: cs =>
          match unit? a b c d with
          | some low =>
            if 0xDC00 ≤ low ∧ low ≤ 0xDFFF then
              let c := Char.ofNat (0x10000 + (high - 0xD800) * 0x400 + (low - 0xDC00))
              stringRest (c :: reversed) cs
            else none
          | none => none
        | _ => none
      else stringRest (.ofNat high :: reversed) cs
  | '\\' :: e :: cs =>
    match escaped? e with
    | some c => stringRest (c :: reversed) cs
    | none => none
  | c :: cs => if c.toNat < 32 ∨ c = '\\' then none else stringRest (c :: reversed) cs

/-- The digits of a number that fit into 64 bits, how many more there were, and the rest. -/
structure Digits where
  value : Nat
  /-- How many digits went into `value`. -/
  kept : Nat
  /-- How many digits came after the first one that no longer fitted, that one included. -/
  dropped : Nat
  rest : List Char

/-- Reads decimal digits behind the digits of `value`. -/
def digits (value kept dropped : Nat) : List Char → Digits
  | [] => ⟨value, kept, dropped, []⟩
  | c :: cs =>
    if c.isDigit then
      let next := value * 10 + (c.toNat - '0'.toNat)
      if dropped = 0 ∧ next < 0x10000000000000000 then digits next (kept + 1) 0 cs
      else digits value kept (dropped + 1) cs
    else ⟨value, kept, dropped, c :: cs⟩

/-- `10 ^ n` as a double. -/
def power10 (n : Nat) : Float := .ofScientific 1 false n

/-- Scales by a power of ten in double arithmetic; a product that is not finite is no number.
Three divisions by `10 ^ 308` bring every significand down to zero. -/
def scale (fuel : Nat) (f : Float) (exponent : Int) : Option Float :=
  if exponent.natAbs ≤ 308 then
    if 0 ≤ exponent then
      let product := f * power10 exponent.natAbs
      if product.isInf then none else some product
    else some (f / power10 exponent.natAbs)
  else if f == 0.0 then some f
  else if 0 ≤ exponent then none
  else match fuel with
    | 0 => some f
    | fuel + 1 => scale fuel (f / power10 308) (exponent + 308)

def double? (negative : Bool) (significand : Nat) (exponent : Int) : Option Number :=
  (scale 3 significand.toUInt64.toFloat exponent).map fun f =>
    .double (if negative then -f else f).toBits

/-- Reads an exponent from behind its letter. An exponent beyond 32 bits gives zero if it is
negative or the significand is zero. -/
def exponentRest (negative : Bool) (significand : Nat) (exponent : Int) (cs : List Char) :
    Option (Number × List Char) :=
  let (down, cs) := match cs with
    | '-' :: cs => (true, cs)
    | '+' :: cs => (false, cs)
    | cs => (false, cs)
  match cs with
  | [] => none
  | c :: _ =>
    if !c.isDigit then none
    else
      let shift := (cs.takeWhile Char.isDigit).foldl (fun n c => n * 10 + (c.toNat - '0'.toNat)) 0
      let rest := cs.dropWhile Char.isDigit
      if 0x80000000 ≤ shift then
        if significand ≠ 0 ∧ !down then none
        else some (.double (if negative then -0.0 else (0.0 : Float)).toBits, rest)
      else
        let exponent := if down then exponent - shift else exponent + shift
        (double? negative significand exponent).map (·, rest)

def numberRest (negative : Bool) (whole : Digits) : Option (Number × List Char) :=
  match whole.rest with
  | '.' :: cs =>
    let fraction := digits whole.value 0 0 cs
    if fraction.kept = 0 ∧ fraction.dropped = 0 then none
    else
      let exponent := (whole.dropped : Int) - fraction.kept
      match fraction.rest with
      | 'e' :: cs | 'E' :: cs => exponentRest negative fraction.value exponent cs
      | cs => (double? negative fraction.value exponent).map (·, cs)
  | 'e' :: cs | 'E' :: cs => exponentRest negative whole.value whole.dropped cs
  | cs =>
    if whole.dropped ≠ 0 ∨ (negative ∧ (whole.value = 0 ∨ 0x8000000000000000 < whole.value)) then
      (double? negative whole.value whole.dropped).map (·, cs)
    else some (.int (if negative then -(whole.value : Int) else whole.value), cs)

/-- Reads a number without its sign. -/
def number (negative : Bool) (cs : List Char) : Option (Number × List Char) :=
  match cs with
  | '0' :: c :: cs => if c.isDigit then none else numberRest negative ⟨0, 1, 0, c :: cs⟩
  | '0' :: [] => numberRest negative ⟨0, 1, 0, []⟩
  | c :: _ => if c.isDigit then numberRest negative (digits 0 0 0 cs) else none
  | [] => none

mutual

/-- Reads a value with at most `depth` arrays and objects around each other. -/
def value (depth : Nat) (cs : List Char) : (fuel : Nat) → Option (Json × List Char)
  | 0 => none
  | fuel + 1 =>
    match skipBlanks cs with
    | 'n' :: 'u' :: 'l' :: 'l' :: cs => some (.null, cs)
    | 't' :: 'r' :: 'u' :: 'e' :: cs => some (.bool true, cs)
    | 'f' :: 'a' :: 'l' :: 's' :: 'e' :: cs => some (.bool false, cs)
    | '"' :: cs => (stringRest [] cs).map fun (s, cs) => (.str s, cs)
    | '[' :: cs =>
      match depth with
      | 0 => none
      | depth + 1 =>
        match skipBlanks cs with
        | ']' :: cs => some (.arr [], cs)
        | cs => items depth [] cs fuel
    | '\x7b' :: cs =>
      match depth with
      | 0 => none
      | depth + 1 =>
        match skipBlanks cs with
        | '\x7d' :: cs => some (.obj [], cs)
        | cs => members depth [] cs fuel
    | '-' :: cs => (number true cs).map fun (n, cs) => (.num n, cs)
    | cs => (number false cs).map fun (n, cs) => (.num n, cs)

/-- Reads the items of an array; `reversed` have been read already. -/
def items (depth : Nat) (reversed : List Json) (cs : List Char) :
    (fuel : Nat) → Option (Json × List Char)
  | 0 => none
  | fuel + 1 =>
    match value depth cs fuel with
    | none => none
    | some (v, cs) =>
      match skipBlanks cs with
      | ',' :: cs => items depth (v :: reversed) cs fuel
      | ']' :: cs => some (.arr (v :: reversed).reverse, cs)
      | _ => none

/-- Reads the members of an object; `reversed` have been read already. -/
def members (depth : Nat) (reversed : List (String × Json)) (cs : List Char) :
    (fuel : Nat) → Option (Json × List Char)
  | 0 => none
  | fuel + 1 =>
    match skipBlanks cs with
    | '"' :: cs =>
      match stringRest [] cs with
      | none => none
      | some (name, cs) =>
        match skipBlanks cs with
        | ':' :: cs =>
          match value depth cs fuel with
          | none => none
          | some (v, cs) =>
            match skipBlanks cs with
            | ',' :: cs => members depth ((name, v) :: reversed) cs fuel
            | '\x7d' :: cs => some (.obj ((name, v) :: reversed).reverse, cs)
            | _ => none
        | _ => none
    | _ => none

end

/-- Reads a text that holds one value and nothing else but white space. Between one item or member
and the next at least one character is read, and a value is read in between. -/
def parse (depth : Nat) (cs : List Char) : Option Json :=
  match value depth cs (2 * cs.length + 2) with
  | some (v, rest) => if (skipBlanks rest).isEmpty then some v else none
  | none => none

end Comet.Json
