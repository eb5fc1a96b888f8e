namespace Comet

inductive SourceError
  | missingInstruction
  | unterminatedString
  | invalidLabel (label : String)
  | duplicateLabel (label : String)
  | undefinedLabel (label : String)
  | noStart
  | nestedStart (block : String)
  | unnamedStart
  | startOperands
  | endWithoutStart
  | labelledEnd
  | endOperands
  | missingEnd (block : String)
  | outsideBlock (opcode : String)
  | unknownInstruction (opcode : String)
  | sizeOperand
  | invalidSize (text : String)
  | constantsMissing
  | transferOperands
  | operandsNotTaken (opcode : String)
  | wrongOperands (mnemonic : String)
  | gr8Disabled
  | registerExpected (text : String)
  | indexByGr0
  | literalLabel (text : String)
  | invalidAddress (text : String)
  | malformedString (text : String)
  | emptyString
  | hexLength (text : String)
  | invalidHex (text : String)
  | invalidDecimal (text : String)
  | invalidConstant (text : String)
  | memoryFull
  deriving DecidableEq, Repr

def SourceError.message : SourceError → String
  | missingInstruction => "missing instruction"
  | unterminatedString => "unterminated string"
  | invalidLabel label => s!"invalid label {label}"
  | duplicateLabel label => s!"duplicate label {label}"
  | undefinedLabel label => s!"undefined label {label}"
  | noStart => "program has no START"
  | nestedStart block => s!"START before END of {block}"
  | unnamedStart => "START needs a label"
  | startOperands => "START takes at most one label operand"
  | endWithoutStart => "END without START"
  | labelledEnd => "END cannot have a label"
  | endOperands => "END takes no operands"
  | missingEnd block => s!"missing END for {block}"
  | outsideBlock opcode => s!"{opcode} outside of a START/END block"
  | unknownInstruction opcode => s!"unknown instruction {opcode}"
  | sizeOperand => "DS takes one size operand"
  | invalidSize text => s!"invalid DS size {text}"
  | constantsMissing => "DC needs at least one constant"
  | transferOperands => "IN/OUT take a buffer and a length operand"
  | operandsNotTaken opcode => s!"{opcode} takes no operands"
  | wrongOperands mnemonic => s!"wrong operands for {mnemonic}"
  | gr8Disabled => "GR8 is not enabled"
  | registerExpected text => s!"expected a register, found {text}"
  | indexByGr0 => "GR0 cannot be used as an index register"
  | literalLabel text => s!"literal {text} must be a constant"
  | invalidAddress text => s!"invalid address {text}"
  | malformedString text => s!"malformed string {text}"
  | emptyString => "empty string constant"
  | hexLength text => s!"hex constant {text} needs four digits"
  | invalidHex text => s!"invalid hex constant {text}"
  | invalidDecimal text => s!"invalid decimal constant {text}"
  | invalidConstant text => s!"invalid constant {text}"
  | memoryFull => "program does not fit in memory"

end Comet
