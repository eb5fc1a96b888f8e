import Comet.Json.Record
import Comet.Options

/-! The arguments of the requests a client sends. They are records, by the rules of derived readers:
an object or an array of the fields, where members of other names are passed over. A field with a
default may be left out but not be null, and one value of the wrong kind spoils the whole record. -/
namespace Comet.Adapter

open Json

def machineOptions? (v : Json) : Option MachineOptions := do
  let r ← Record.ofJson? 1 v
  return { gr8IsSp := ← r.fieldD 0 "useGR8AsSP" true bool? }

def assemblyOptions? (v : Json) : Option AssemblyOptions := do
  let r ← Record.ofJson? 2 v
  let useGr8 ← r.fieldD 0 "useGR8" true bool?
  let labelScope ← r.fieldD 1 "enableLabelScope" true bool?
  return { useGr8, labelScope }

def launch? (v : Json) : Option Launch := do
  let r ← Record.ofJson? 4 v
  let program ← r.field 0 "program" string?
  let stopOnEntry ← r.fieldD 1 "stopOnEntry" false bool?
  let machine ← r.fieldD 2 "engineOptions" {} machineOptions?
  let assembly ← r.fieldD 3 "compileOptions" {} assemblyOptions?
  return { program, stopOnEntry, machine, assembly }

/-- Whether the client counts lines from one, if it says so. -/
def linesStartAt1? (v : Json) : Option (Option Bool) := do
  (← Record.ofJson? 1 v).field? 0 "linesStartAt1" bool?

/-- The breakpoints wanted in one file, by the client's line numbers. -/
structure BreakpointRequest where
  path : Option String
  lines : List Int
  deriving DecidableEq, Repr

def sourcePath? (v : Json) : Option (Option String) := do
  (← Record.ofJson? 1 v).field? 0 "path" string?

def breakpointLine? (v : Json) : Option Int := do
  (← Record.ofJson? 1 v).field 0 "line" int64?

def listOf? {α : Type} (read : Json → Option α) (v : Json) : Option (List α) :=
  v.array?.bind fun items => items.mapM read

/-- Lines may come as breakpoints or as bare numbers; breakpoints are preferred. -/
def breakpoints? (v : Json) : Option BreakpointRequest := do
  let r ← Record.ofJson? 3 v
  let path ← r.fieldD 0 "source" none sourcePath?
  let breakpoints ← r.field? 1 "breakpoints" (listOf? breakpointLine?)
  let lines ← r.field? 2 "lines" (listOf? int64?)
  return { path, lines := (breakpoints.or lines).getD [] }

/-- Which frames of the call stack are wanted. -/
structure FrameRange where
  start : Option Nat := none
  levels : Option Nat := none
  deriving DecidableEq, Repr

def frameRange? (v : Json) : Option FrameRange := do
  let r ← Record.ofJson? 2 v
  let start ← r.field? 0 "startFrame" nat?
  let levels ← r.field? 1 "levels" nat?
  return { start, levels }

def variablesReference? (v : Json) : Option Int := do
  (← Record.ofJson? 1 v).field 0 "variablesReference" int64?

/-- An expression, and what the client wants its value for. -/
structure EvaluateRequest where
  expression : String
  context : Option String
  deriving DecidableEq, Repr

def evaluate? (v : Json) : Option EvaluateRequest := do
  let r ← Record.ofJson? 2 v
  let expression ← r.field 0 "expression" string?
  let context ← r.field? 1 "context" string?
  return { expression, context }

end Comet.Adapter
