import Comet.Assembly.SourceError
import Comet.Text.Blank
import Comet.Text.Quoted

/-! A source line in columns. A label starts in the first column and the operation code follows
white space; the operand field ends at the first white space outside quotes, and everything after
it is a comment, as is everything from a semicolon outside quotes. -/
namespace Comet

structure Statement where
  label : Option String
  opcode : String
  operands : List String
  deriving DecidableEq, Repr

namespace Statement

open Text

def stripComment (line : List Char) : List Char := untilUnquoted (· == ';') false line

/-- Nothing but a comment stands on the line. -/
def isBlankLine (line : List Char) : Bool := (stripComment line).all isBlank

/-- The operands of a field; an empty field has none. -/
def splitOperands (field : List Char) : List (List Char) :=
  if field.isEmpty then [] else splitUnquoted ',' false field

def operandField (text : List Char) : Except SourceError (List Char) :=
  let field := untilUnquoted isBlank false text
  if endsQuoted field then .error .unterminatedString else .ok field

/-- The label of a line without its comment, and what follows the label. -/
def splitLabel (text : List Char) : Option (List Char) × List Char :=
  match text with
  | c :: _ =>
    if isBlank c then (none, trimStart text)
    else
      let (label, rest) := splitWord text
      (some label, trimStart rest)
  | [] => (none, [])

/-- The statement on a line, if there is one. -/
def ofLine (line : List Char) : Except SourceError (Option Statement) :=
  let text := trimEnd (stripComment line)
  if text.isEmpty then .ok none
  else
    let (label, rest) := splitLabel text
    if rest.isEmpty then .error .missingInstruction
    else
      let (opcode, rest) := splitWord rest
      match operandField (trimStart rest) with
      | .error e => .error e
      | .ok field =>
        .ok (some ⟨label.map .ofList, .ofList opcode, (splitOperands field).map .ofList⟩)

end Statement

end Comet
