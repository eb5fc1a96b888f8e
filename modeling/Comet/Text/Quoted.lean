/-! Quotes in a line. A quote opens or closes a quoted part, in which separators have no meaning;
a string is written between quotes, with each of its own quotes written twice. -/
namespace Comet.Text

/-- The text before the first character outside quotes that `stop` holds of. `quoted` says
whether the text starts inside quotes. -/
def untilUnquoted (stop : Char → Bool) (quoted : Bool) : List Char → List Char
  | [] => []
  | c :: cs =>
    if c = '\'' then c :: untilUnquoted stop (!quoted) cs
    else if !quoted && stop c then []
    else c :: untilUnquoted stop quoted cs

/-- Puts a character before the first part. -/
def consFirst (c : Char) : List (List Char) → List (List Char)
  | [] => [[c]]
  | part :: parts => (c :: part) :: parts

/-- The parts of the text between the separators that stand outside quotes. -/
def splitUnquoted (separator : Char) (quoted : Bool) : List Char → List (List Char)
  | [] => [[]]
  | c :: cs =>
    if c = '\'' then consFirst c (splitUnquoted separator (!quoted) cs)
    else if !quoted && c == separator then [] :: splitUnquoted separator quoted cs
    else consFirst c (splitUnquoted separator quoted cs)

/-- Whether the text ends inside quotes. -/
def endsQuoted (cs : List Char) : Bool := cs.count '\'' % 2 == 1

def doubleQuotes : List Char → List Char
  | [] => []
  | c :: cs => if c = '\'' then '\'' :: '\'' :: doubleQuotes cs else c :: doubleQuotes cs

/-- The string `cs` as it is written in source text. -/
def quote (cs : List Char) : List Char := '\'' :: (doubleQuotes cs ++ ['\''])

/-- Reads what follows the opening quote, up to a closing quote at the very end. -/
def unquoteRest : List Char → Option (List Char)
  | [] => none
  | '\'' :: [] => some []
  | '\'' :: '\'' :: cs => (unquoteRest cs).map ('\'' :: ·)
  | c :: cs => if c = '\'' then none else (unquoteRest cs).map (c :: ·)

def unquote : List Char → Option (List Char)
  | '\'' :: cs => unquoteRest cs
  | _ => none

end Comet.Text
