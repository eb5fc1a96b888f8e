/-! Lines of a text. A line ends with a line feed, before which one carriage return is dropped;
what follows the last line feed is a line unless it is empty, and keeps its carriage return. -/
namespace Comet.Text

def dropReturn : List Char → List Char
  | '\r' :: rest => rest
  | cs => cs

/-- The lines of `reversed.reverse ++ cs`, where `reversed` is the part of the first line that
has been read already, last character first. -/
def linesFrom (reversed : List Char) : List Char → List (List Char)
  | [] => if reversed.isEmpty then [] else [reversed.reverse]
  | c :: cs =>
    if c = '\n' then (dropReturn reversed).reverse :: linesFrom [] cs
    else linesFrom (c :: reversed) cs

def lines (cs : List Char) : List (List Char) := linesFrom [] cs

end Comet.Text
