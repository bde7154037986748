import NamedStack.Bytes

/-!
# The working directory

What the command sees of the files: a working directory that holds some, each by the names on its
path. A path is followed from name to name. An empty name or a single dot stays, two dots go up, and
nothing lies below a file, not even an empty name. Of the directories above the working directory
nothing is known but that they are there.
-/

namespace NamedStack.Command

/-- Why a file cannot be read. -/
inductive FileError where
  | notFound
  | isDirectory
  /-- A name below a file. -/
  | notDirectory
  /-- A name or a path that no file can have. -/
  | tooLong
  | denied
  | unreadable
  deriving DecidableEq, Repr

/-- The wording for a file that cannot be read. -/
def FileError.message (name : Bytes) : FileError → Bytes
  | .notFound => text "open " ++ name ++ text ": no such file or directory"
  | .isDirectory => text "read " ++ name ++ text ": is a directory"
  | .notDirectory => text "open " ++ name ++ text ": not a directory"
  | .tooLong => text "open " ++ name ++ text ": file name too long"
  | .denied => text "open " ++ name ++ text ": permission denied"
  | .unreadable => text "read " ++ name ++ text ": input/output error"

/-- A working directory: the files below it, by the names on their paths. -/
structure Directory where
  files : List (List Bytes × Bytes)

/-- Where a path has led so far. -/
inductive Place where
  /-- A directory above the working directory. -/
  | above
  /-- The working directory, or the one below it with the given names on its path. -/
  | directory (names : List Bytes)
  /-- A file. -/
  | file (content : Bytes)
  deriving DecidableEq, Repr

namespace Directory

/-- Whether a name on a path stays where it is. -/
def stays (name : Bytes) : Bool := name = [] || name = text "."

/-- The names on a path that leads down. -/
def namesOf (path : Bytes) : List Bytes := (Bytes.splitOn 47 path).filter fun n => !stays n

/-- The working directory with the given files. -/
def ofList (files : List (Bytes × Bytes)) : Directory where
  files := files.map fun f => (namesOf f.1, f.2)

/-- What has the given names on its path. -/
def at? (d : Directory) (names : List Bytes) : Option Place :=
  match d.files.lookup names with
  | some content => some (.file content)
  | none => if d.files.any fun f => names.isPrefixOf f.1 then some (.directory names) else none

/-- Follow one name of a path. -/
def follow (d : Directory) (place : Place) (name : Bytes) : Except FileError Place :=
  match place with
  | .file _ => .error .notDirectory
  | place =>
    if stays name then .ok place
    else if name = text ".." then
      match place with
      | .directory (n :: rest) => .ok (.directory (n :: rest).dropLast)
      | _ => .ok .above
    else if 255 < name.length then .error .tooLong
    else match place with
      | .directory names => match d.at? (names ++ [name]) with
        | some p => .ok p
        | none => .error .notFound
      | _ => .error .notFound

/-- The content of the file that a path leads to. -/
def read (d : Directory) (path : Bytes) : Except FileError Bytes :=
  if path.isEmpty then .error .notFound
  else if 4095 < path.length then .error .tooLong
  else do
    let start := if path.head? = some 47 then Place.above else .directory []
    match ← (Bytes.splitOn 47 path).foldlM d.follow start with
    | .file content => .ok content
    | _ => .error .isDirectory

end Directory

end NamedStack.Command
