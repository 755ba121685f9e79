/-!
# Files

What a program can be given to read: the ways in which opening a path can fail, and a directory
held in memory. A path is walked name by name; `.` and an empty name stay where they are, `..` goes
up, and every name but the last must be that of a folder. Nothing can be found above the directory.
-/

namespace ArithTree.Command

/-- Why a file cannot be read. -/
inductive FileError where
  | notFound
  | isFolder
  | notFolder
  | nameTooLong
  | denied
  /-- The content is not UTF-8. -/
  | notText
  | other (description : String)
  deriving DecidableEq, Repr

def FileError.message : FileError → String
  | .notFound => "No such file or directory (os error 2)"
  | .isFolder => "Is a directory (os error 21)"
  | .notFolder => "Not a directory (os error 20)"
  | .nameTooLong => "File name too long (os error 36)"
  | .denied => "Permission denied (os error 13)"
  | .notText => "stream did not contain valid UTF-8"
  | .other description => description

def decode (content : ByteArray) : Except FileError String :=
  match String.fromUTF8? content with
  | some text => .ok text
  | none => .error .notText

/-- What a path can lead to. -/
inductive Entry where
  | file (content : ByteArray)
  | folder

/-- Files and folders by the names that lead to them. -/
structure Directory where
  entries : List (List String × Entry) := []

namespace Directory

/-- The entry with a list of names. The names before the last of an entry are folders. -/
def entry? (d : Directory) (names : List String) : Option Entry :=
  match d.entries.lookup names with
  | some e => some e
  | none =>
    if names.isEmpty || d.entries.any (fun e => names.isPrefixOf e.1) then some .folder else none

/-- A place in the directory, or `none` above it. -/
abbrev Location := Option (List String)

/-- Walks on by names. -/
def walk (d : Directory) : (here : Location) → List String → Except FileError Location
  | here, [] => .ok here
  | here, name :: names =>
    let entry : Option Entry :=
      match here with
      | none => some .folder
      | some path => d.entry? path
    match entry with
    | none => .error .notFound
    | some (.file _) => .error .notFolder
    | some .folder =>
      if name = "" ∨ name = "." then d.walk here names
      else if 255 < name.utf8ByteSize then .error .nameTooLong
      else if name = ".." then
        match here with
        | some (first :: others) => d.walk (some (first :: others).dropLast) names
        | _ => d.walk none names
      else
        match here with
        | none => .error .notFound
        | some path => d.walk (some (path ++ [name])) names

def read (d : Directory) (path : String) : Except FileError String :=
  if path = "" then .error .notFound
  else if 4096 ≤ path.utf8ByteSize then .error .nameTooLong
  else do
    let start : Location := if path.toList.head? = some '/' then none else some []
    match ← d.walk start (path.splitOn "/") with
    | none => .error .isFolder
    | some names =>
      match d.entry? names with
      | none => .error .notFound
      | some .folder => .error .isFolder
      | some (.file content) => decode content

end Directory

end ArithTree.Command
