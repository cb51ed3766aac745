import EmbeddedGraphQL.Project.PathName
import EmbeddedGraphQL.Text.Utf8

/-!
The files that a project is read from. Names that are not absolute start at the current folder, and
a name leads to a file only through folders that exist.
-/
namespace EmbeddedGraphQL

/-- The content of a file and when it was last changed. -/
structure StoredFile where
  modified : Int
  bytes : Utf8.Bytes
  deriving DecidableEq, Repr

structure FileTree where
  current : List String
  folders : List (List String)
  files : List (List String × StoredFile)
  deriving Repr

/-- What a name leads to. -/
inductive PathTarget where
  | file (f : StoredFile)
  | folder
  | missing
  | notFolder
  deriving DecidableEq, Repr

namespace FileTree

/-- The folders on the way to a place and the place itself. -/
def wayTo (place : List String) : List (List String) :=
  (List.range place.length).map fun n => place.take (n + 1)

/-- A tree without files whose current folder exists. -/
def empty (current : List String) : FileTree := ⟨current, wayTo current, []⟩

def isFolder (t : FileTree) (place : List String) : Bool :=
  place.isEmpty || t.folders.contains place

def lookUp (t : FileTree) (place : List String) : PathTarget :=
  if t.isFolder place then .folder
  else match t.files.lookup place with
    | some f => .file f
    | none => .missing

/-- Follows the parts of a name from a place on. -/
def walk (t : FileTree) (place : List String) : List String → PathTarget
  | [] => t.lookUp place
  | part :: rest =>
    match t.lookUp place with
    | .folder => walk t (if part == ".." then place.dropLast else place ++ [part]) rest
    | .file _ => .notFolder
    | other => other

def find (t : FileTree) (name : String) : PathTarget :=
  t.walk (if PathName.isAbsolute name then [] else t.current) (PathName.components name)

/-- The place of a name, for writing. -/
def place (t : FileTree) (name : String) : List String :=
  (if PathName.isAbsolute name then [] else t.current) ++ PathName.components name

/-- Makes a folder and the ones that it lies in. -/
def makeFolder (t : FileTree) (place : List String) : FileTree :=
  let missing := (wayTo place).filter fun folder => !t.folders.contains folder
  { t with folders := t.folders ++ missing }

/-- Writes a file and makes the folders that it needs. -/
def write (t : FileTree) (name : String) (f : StoredFile) : FileTree :=
  let place := t.place name
  let t := t.makeFolder place.dropLast
  { t with files := (t.files.filter (·.1 != place)) ++ [(place, f)] }

def remove (t : FileTree) (name : String) : FileTree :=
  { t with files := t.files.filter (·.1 != t.place name) }

/-- When the file that a name leads to was last changed. -/
def modified? (t : FileTree) (name : String) : Option Int :=
  match t.find name with
  | .file f => some f.modified
  | _ => none

end FileTree
end EmbeddedGraphQL
