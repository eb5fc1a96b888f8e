import Comet.Assembly.SourceError
import Comet.Word

namespace Comet

abbrev Symbols := List (String × Word)

/-- A label is defined once. -/
def Symbols.define (table : Symbols) (name : String) (address : Word) :
    Except SourceError Symbols :=
  if (table.lookup name).isSome then .error (.duplicateLabel name)
  else .ok ((name, address) :: table)

end Comet
