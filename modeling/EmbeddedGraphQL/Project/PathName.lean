/-!
Path names. Doubled separators, single dots and a final separator mean nothing and are dropped, but
two separators at the very start are kept; double dots are kept too, since they are only resolved
against the folders that exist.
-/
namespace EmbeddedGraphQL.PathName

def components (name : String) : List String :=
  (name.splitOn "/").filter fun part => part != "" && part != "."

def isAbsolute (name : String) : Bool := name.startsWith "/"

/-- The separators that an absolute name starts with. -/
def root (name : String) : String :=
  if !isAbsolute name then ""
  else if name.startsWith "//" && !name.startsWith "///" then "//"
  else "/"

def ofParts (root : String) (parts : List String) : String :=
  let name := root ++ "/".intercalate parts
  if name == "" then "." else name

/-- The name in its shortest form. -/
def normalize (name : String) : String := ofParts (root name) (components name)

/-- A name as seen from a folder; an absolute name stands for itself. -/
def join (folder name : String) : String :=
  if isAbsolute name then normalize name
  else ofParts (root folder) (components folder ++ components name)

/-- The folder that a name lies in. -/
def parent (name : String) : String := ofParts (root name) (components name).dropLast

end EmbeddedGraphQL.PathName
