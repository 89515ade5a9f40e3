import EnvScript.Text.Utf8

/-!
# Reading files

Why a file cannot be read, and a folder held in memory. Paths are resolved from inside the folder;
around it there is nothing else to be read.
-/

namespace EnvScript

inductive FileError where
  | missing
  | isDirectory
  | notDirectory
  | nameTooLong
  | other (message : String)
  deriving DecidableEq, Repr

def FileError.message : FileError → String
  | .missing => "No such file or directory"
  | .isDirectory => "Is a directory"
  | .notDirectory => "Not a directory"
  | .nameTooLong => "File name too long"
  | .other message => message

/-- The pieces of a path between its slashes. -/
def pathComponents : Text → List Text
  | [] => [[]]
  | c :: t =>
    if c = '/' then [] :: pathComponents t
    else
      match pathComponents t with
      | [] => [[c]]
      | name :: names => (c :: name) :: names

/-- Files and folders by the names that lead to them. -/
structure Folder where
  files : List (List Text × List UInt8)
  folders : List (List Text)

namespace Folder

/-- Where a path has led so far. -/
inductive Place where
  | inside (path : List Text)
  | outside
  | file (bytes : List UInt8)

def ofPaths (files : List (Text × List UInt8)) (folders : List Text) : Folder :=
  ⟨files.map fun (path, bytes) => (pathComponents path, bytes), folders.map pathComponents⟩

def byteLength (t : Text) : Nat := (String.ofList t).utf8ByteSize

/-- Follows one name of a path. -/
def follow (f : Folder) (place : Place) (name : Text) : Except FileError Place :=
  match place with
  | .file _ => .error .notDirectory
  | .outside =>
    if name = [] ∨ name = ['.'] ∨ name = ['.', '.'] then .ok .outside
    else if 255 < byteLength name then .error .nameTooLong
    else .error .missing
  | .inside path =>
    if name = [] ∨ name = ['.'] then .ok (.inside path)
    else if name = ['.', '.'] then .ok (if path.isEmpty then .outside else .inside path.dropLast)
    else if 255 < byteLength name then .error .nameTooLong
    else
      match f.files.lookup (path ++ [name]) with
      | some bytes => .ok (.file bytes)
      | none =>
        if f.folders.contains (path ++ [name]) then .ok (.inside (path ++ [name]))
        else .error .missing

/-- The content of the file at a path. -/
def read (f : Folder) (path : Text) : Except FileError (List UInt8) := do
  if path.isEmpty then throw .missing
  else if 4096 ≤ byteLength path then throw .nameTooLong
  else
    let start : Place := if path.head? = some '/' then .outside else .inside []
    match ← (pathComponents path).foldlM f.follow start with
    | .file bytes => return bytes
    | _ => throw .isDirectory

end Folder

end EnvScript
