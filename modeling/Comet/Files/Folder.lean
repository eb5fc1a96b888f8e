import Comet.Files.FileError
import Comet.Files.Path
import Comet.Text.Utf8

/-! A tree of files and folders, and paths that lead through it. A path that leaves the tree at its
top is in some folder outside, of which nothing else is known. -/
namespace Comet

inductive FileNode
  | file (bytes : List UInt8)
  | folder (entries : List (String × FileNode))
  deriving Repr, Inhabited

/-- The entries of the current folder. -/
structure Folder where
  entries : List (String × FileNode) := []
  deriving Repr, Inhabited

namespace FileNode

/-- The entries of a folder; a file has none. -/
def entries : FileNode → List (String × FileNode)
  | file _ => []
  | folder es => es

def setEntry (name : String) (node : FileNode) (es : List (String × FileNode)) :
    List (String × FileNode) :=
  (name, node) :: es.filter (·.1 ≠ name)

/-- Puts a node at the end of the names, making folders on the way. -/
def insert (node : FileNode) : List String → List (String × FileNode) → List (String × FileNode)
  | [], es => es
  | [name], es => setEntry name node es
  | name :: rest, es =>
    let inner := ((es.lookup name).map FileNode.entries).getD []
    setEntry name (folder (insert node rest inner)) es

def remove : List String → List (String × FileNode) → List (String × FileNode)
  | [], es => es
  | [name], es => es.filter (·.1 ≠ name)
  | name :: rest, es => match es.lookup name with
    | some (folder inner) => setEntry name (folder (remove rest inner)) es
    | _ => es

def find? : List String → FileNode → Option FileNode
  | [], node => some node
  | name :: rest, folder es => (es.lookup name).bind (find? rest)
  | _, file _ => none

end FileNode

namespace Folder

/-- Where a path leads: to the end of the names from the current folder, or outside. -/
inductive Place
  | inside (names : List String)
  | outside
  deriving DecidableEq, Repr

def node? (root : Folder) : Place → Option FileNode
  | .inside names => (FileNode.folder root.entries).find? names
  | .outside => some (.folder [])

/-- One step of a path, which must be taken from a folder. -/
def step (root : Folder) (place : Place) (name : List Char) : Except FileError Place :=
  match root.node? place with
  | none => .error .notFound
  | some (.file _) => .error .notDirectory
  | some (.folder es) =>
    if name = [] ∨ name = ['.'] then .ok place
    else match place with
      | .outside => if name = ['.', '.'] then .ok .outside else .error .notFound
      | .inside names =>
        if name = ['.', '.'] then
          .ok (if names.isEmpty then .outside else .inside names.dropLast)
        else if (es.lookup (.ofList name)).isSome then .ok (.inside (names ++ [.ofList name]))
        else .error .notFound

def start (path : String) : Place := if path.toList.head? = some '/' then .outside else .inside []

def checkName (path : String) : Except FileError Unit :=
  if path.toList.contains (.ofNat 0) then .error .nulInName
  else if path.isEmpty then .error .notFound
  else .ok ()

def locate (root : Folder) (path : String) : Except FileError Place := do
  checkName path
  (Path.steps path).foldlM root.step (start path)

def readBytes (root : Folder) (path : String) : Except FileError (List UInt8) := do
  match root.node? (← root.locate path) with
  | some (.file bytes) => return bytes
  | some (.folder _) => throw .isDirectory
  | none => throw .notFound

/-- The text of a file. -/
def readText (root : Folder) (path : String) : Except FileError String := do
  match Text.utf8Decode? (← root.readBytes path) with
  | some text => return text
  | none => throw .notUtf8

def names (path : String) : List String := (Path.properSteps path).map .ofList

/-- Puts a file at a path, with the folders above it. -/
def writeFile (root : Folder) (path : String) (bytes : List UInt8) : Folder :=
  ⟨FileNode.insert (.file bytes) (names path) root.entries⟩

def makeFolder (root : Folder) (path : String) : Folder :=
  match (FileNode.folder root.entries).find? (names path) with
  | some (.folder _) => root
  | _ => ⟨FileNode.insert (.folder []) (names path) root.entries⟩

def removeFile (root : Folder) (path : String) : Folder :=
  ⟨FileNode.remove (names path) root.entries⟩

/-- Opens a file for writing from its beginning, making it if there is none in its folder. -/
def createFile (root : Folder) (path : String) : Except FileError Folder := do
  checkName path
  let steps := Path.steps path
  let parent ← steps.dropLast.foldlM root.step (start path)
  let last := steps.getLastD []
  match root.step parent last with
  | .ok place => match root.node? place, place with
    | some (.file _), .inside names =>
      return ⟨FileNode.insert (.file []) names root.entries⟩
    | _, _ => throw .isDirectory
  | .error .notFound => match parent with
    | .inside names => return ⟨FileNode.insert (.file []) (names ++ [.ofList last]) root.entries⟩
    | .outside => return root
  | .error e => throw e

end Folder

end Comet
