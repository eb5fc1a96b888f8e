import Comet.Assembly.SourceError
import Comet.Text.Numeral
import Comet.Text.Quoted
import Comet.Word

namespace Comet

/-- What is put into one word of memory. -/
inductive Cell
  | value (w : Word)
  /-- The address of a label. -/
  | label (name : String)
  /-- The address of a run of words that the block keeps among its literals. -/
  | literal (words : List Word)
  deriving DecidableEq, Repr

def Cell.value? : Cell → Option Word
  | .value w => some w
  | _ => none

namespace Assembly

open Text

/-- Three characters that are meant as a register, whether or not there is one of that number. -/
def looksLikeRegister : List Char → Bool
  | ['G', 'R', d] => d.isDigit
  | _ => false

def isRegisterName : List Char → Bool
  | ['G', 'R', d] => '0' ≤ d && d ≤ '8'
  | _ => false

/-- One to eight upper-case letters and digits, a letter first, and no name of a register. -/
def isLabel (cs : List Char) : Bool :=
  match cs with
  | [] => false
  | c :: rest =>
    c.isUpper && cs.length ≤ 8 && rest.all (fun d => d.isUpper || d.isDigit) && !isRegisterName cs

def stringConstant (cs : List Char) : Except SourceError (List Cell) :=
  match unquote cs with
  | none => .error (.malformedString (.ofList cs))
  | some [] => .error .emptyString
  | some content => .ok (content.map fun c => .value (Word.ofChar c))

/-- The length that counts is that of the text in UTF-8. -/
def hexConstant (cs digits : List Char) : Except SourceError (List Cell) :=
  if (String.ofList digits).utf8ByteSize ≠ 4 then .error (.hexLength (.ofList cs))
  else match unsigned? 16 0x10000 digits with
    | some n => .ok [.value (.ofNat n)]
    | none => .error (.invalidHex (.ofList cs))

/-- Negative numbers stand for their two's complement. -/
def decimalConstant (cs : List Char) : Except SourceError (List Cell) :=
  match signed? cs with
  | some n =>
    if -32768 ≤ n ∧ n ≤ 65535 then .ok [.value (.ofNat (n % 65536).toNat)]
    else .error (.invalidDecimal (.ofList cs))
  | none => .error (.invalidDecimal (.ofList cs))

def startsDecimal (c : Char) : Bool := c.isDigit || c == '-' || c == '+'

/-- A string, a hexadecimal number after `#`, a decimal number or a label. -/
def constant (cs : List Char) : Except SourceError (List Cell) :=
  match cs with
  | '\'' :: _ => stringConstant cs
  | '#' :: digits => hexConstant cs digits
  | c :: _ =>
    if startsDecimal c then decimalConstant cs
    else if isLabel cs then .ok [.label (.ofList cs)]
    else .error (.invalidConstant (.ofList cs))
  | [] => .error (.invalidConstant "")

/-- A literal `=constant`, or a constant of one word. -/
def addressOperand (cs : List Char) : Except SourceError Cell :=
  match cs with
  | '=' :: rest => do
    match (← constant rest).mapM Cell.value? with
    | some words => return .literal words
    | none => throw (.literalLabel (.ofList cs))
  | _ => do
    match ← constant cs with
    | [cell] => return cell
    | _ => throw (.invalidAddress (.ofList cs))

end Assembly

end Comet
