/-!
Reading files. A folder held in memory answers a path as the working directory
of a process would: relative paths start at the folder, and nothing but
directories is known outside of it.
-/

namespace Calculator.Command

inductive ReadError where
  | notFound
  | notDirectory
  | isDirectory
  | notText
  | other (reason : String)
  deriving DecidableEq, Repr

def ReadError.reason : ReadError → String
  | .notFound => "No such file or directory (os error 2)"
  | .notDirectory => "Not a directory (os error 20)"
  | .isDirectory => "Is a directory (os error 21)"
  | .notText => "stream did not contain valid UTF-8"
  | .other reason => reason

def decodeText (bytes : ByteArray) : Except ReadError String :=
  match String.fromUTF8? bytes with
  | some text => .ok text
  | none => .error .notText

structure Folder where
  files : List (String × ByteArray)

inductive Place where
  | inside
  | outside
  | file (content : ByteArray)

/-- Follows one component of a path. A file has no components below it, not even
an empty one. -/
def Folder.enter (folder : Folder) (place : Place) (component : String) :
    Except ReadError Place :=
  match place with
  | .file _ => .error .notDirectory
  | .inside =>
      if component = "" ∨ component = "." then .ok .inside
      else if component = ".." then .ok .outside
      else
        match folder.files.lookup component with
        | some content => .ok (.file content)
        | none => .error .notFound
  | .outside =>
      if component = "" ∨ component = "." ∨ component = ".." then .ok .outside
      else .error .notFound

/-- The text of the file at a path. The empty path leads nowhere. -/
def Folder.readText (folder : Folder) (path : String) : Except ReadError String := do
  if path = "" then throw .notFound
  let first := if path.toList.head? = some '/' then Place.outside else Place.inside
  match ← (path.splitOn "/").foldlM folder.enter first with
  | .file content => decodeText content
  | .inside | .outside => throw .isDirectory

end Calculator.Command
