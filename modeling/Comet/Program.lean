import Comet.Options
import Comet.Word

namespace Comet

structure Diagnostic where
  line : Nat
  message : String
  deriving DecidableEq, Repr

/-- Shown with the line number that an editor shows. -/
def Diagnostic.display (d : Diagnostic) : String := s!"[casl2] {d.message} (line {d.line + 1})"

structure Subroutine where
  name : String
  startLine : Nat
  deriving DecidableEq, Repr

/-- Source lines by address, in ascending order of the addresses. -/
structure AddressMap where
  entries : List (Word × Nat) := []
  deriving DecidableEq, Repr

namespace AddressMap

def insertEntry (address : Word) (line : Nat) : List (Word × Nat) → List (Word × Nat)
  | [] => [(address, line)]
  | (a, l) :: rest =>
    if address < a then (address, line) :: (a, l) :: rest
    else if address = a then (address, line) :: rest
    else (a, l) :: insertEntry address line rest

/-- A later entry for the same address takes the place of the earlier one. -/
def insert (map : AddressMap) (address : Word) (line : Nat) : AddressMap :=
  ⟨insertEntry address line map.entries⟩

def ofList (entries : List (Word × Nat)) : AddressMap :=
  entries.foldl (fun map entry => map.insert entry.1 entry.2) {}

def get? (map : AddressMap) (address : Word) : Option Nat := map.entries.lookup address

def hasLine (map : AddressMap) (line : Nat) : Bool := map.entries.any (·.2 == line)

/-- The lines of the map, ascending and each once. -/
def lines (map : AddressMap) : List Nat :=
  ((map.entries.map (·.2)).mergeSort (· ≤ ·)).eraseDups

theorem lookup_insertEntry (address a : Word) (line : Nat) (entries : List (Word × Nat)) :
    (insertEntry address line entries).lookup a =
      if a = address then some line else entries.lookup a := by
  induction entries with
  | nil => grind [insertEntry]
  | cons entry rest ih => grind [insertEntry]

theorem get?_insert (map : AddressMap) (address a : Word) (line : Nat) :
    (map.insert address line).get? a = if a = address then some line else map.get? a :=
  lookup_insertEntry address a line map.entries

end AddressMap

/-- What a debugger knows of a program beyond its words. -/
structure DebugMap where
  /-- The line of each machine instruction, by the address of its first word. -/
  lineMap : AddressMap := {}
  /-- The START line of each subroutine, by its entry address. -/
  subroutineMap : AddressMap := {}
  subroutines : List Subroutine := []
  deriving DecidableEq, Repr

namespace DebugMap

def lineAt (d : DebugMap) (address : Word) : Option Nat := d.lineMap.get? address

/-- The subroutine that starts at the line of the entry address. -/
def subroutineAt (d : DebugMap) (address : Word) : Option Subroutine :=
  (d.subroutineMap.get? address).bind fun line => d.subroutines.find? (·.startLine == line)

/-- The first of the subroutines with the smallest start line. -/
def entrySubroutine (d : DebugMap) : Option Subroutine :=
  d.subroutines.foldl (fun best s => match best with
    | some b => if s.startLine < b.startLine then some s else some b
    | none => some s) none

def isEntryLine (d : DebugMap) (line : Nat) : Bool := d.subroutineMap.hasLine line

end DebugMap

structure Program where
  code : List Word
  /-- Where execution starts. -/
  entry : Word
  debug : DebugMap
  deriving DecidableEq, Repr

/-- The answer of an assembler: what it found wrong, and the program if it made one. -/
structure Assembled where
  diagnostics : List Diagnostic := []
  program : Option Program := none
  deriving DecidableEq, Repr

/-- Turns source text into a program. -/
abbrev Assembler := String → AssemblyOptions → Assembled

end Comet
