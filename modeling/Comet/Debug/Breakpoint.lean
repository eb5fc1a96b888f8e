import Comet.Assembly.Statement
import Comet.Text.Lines

namespace Comet

structure Breakpoint where
  id : Nat
  line : Nat
  /-- There is something on the line to stop at. -/
  verified : Bool
  deriving DecidableEq, Repr

structure BreakpointTable where
  /-- The latest list of each file, by the path it was set for. -/
  files : List (String × List Breakpoint) := []
  /-- Each breakpoint gets a number of its own. -/
  nextId : Nat := 1000
  deriving DecidableEq, Repr

namespace BreakpointTable

/-- The line exists and holds more than a comment. -/
def canStop (lines : List (List Char)) (line : Nat) : Bool :=
  match lines[line]? with
  | some text => !Statement.isBlankLine text
  | none => false

def number (source : List (List Char)) (id : Nat) : List Nat → List Breakpoint
  | [] => []
  | line :: rest => ⟨id, line, canStop source line⟩ :: number source (id + 1) rest

/-- Replaces the breakpoints of a file. A file that cannot be read has no lines. -/
def set (table : BreakpointTable) (path : String) (source : Option String) (lines : List Nat) :
    List Breakpoint × BreakpointTable :=
  let texts := match source with
    | some text => Text.lines text.toList
    | none => []
  let breakpoints := number texts table.nextId lines
  (breakpoints,
    { files := (path, breakpoints) :: table.files.filter (·.1 ≠ path),
      nextId := table.nextId + lines.length })

def get (table : BreakpointTable) (path : String) : List Breakpoint :=
  (table.files.lookup path).getD []

def contains (table : BreakpointTable) (path : String) (line : Nat) : Bool :=
  (table.get path).any fun b => b.verified && b.line == line

end BreakpointTable

end Comet
