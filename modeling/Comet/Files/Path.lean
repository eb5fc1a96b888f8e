namespace Comet.Path

/-- The steps of a path. An empty step comes from a slash at either end or from two in a row. -/
def steps (path : String) : List (List Char) := go [] path.toList
where
  go (reversed : List Char) : List Char → List (List Char)
    | [] => [reversed.reverse]
    | c :: cs => if c = '/' then reversed.reverse :: go [] cs else go (c :: reversed) cs

/-- Steps that lead somewhere else. -/
def properSteps (path : String) : List (List Char) :=
  (steps path).filter fun s => s ≠ [] ∧ s ≠ ['.']

/-- The last step, if it is the name of something. -/
def fileName? (path : String) : Option String :=
  match (properSteps path).getLast? with
  | some name => if name = ['.', '.'] then none else some (.ofList name)
  | none => none

/-- What follows the last dot of the name, unless the name has no dot after its first character. -/
def extension? (path : String) : Option String :=
  (fileName? path).bind fun name =>
    let reversed := name.toList.reverse
    let after := reversed.takeWhile (· ≠ '.')
    match reversed.drop after.length with
    | '.' :: _ :: _ => some (.ofList after.reverse)
    | _ => none

end Comet.Path
