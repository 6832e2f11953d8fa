import Exemplar.Text.Chars

/-!
# Files

What a command can know about the files it is given: for every path, the bytes
of the file there or why there are none. `Folder` is such a view built from
files alone, with the usual meaning of paths relative to it.
-/

namespace Exemplar

/-- Why a file cannot be read as text. -/
inductive ReadFault where
  | notFound
  | isDirectory
  /-- The path goes through a file. -/
  | notDirectory
  /-- A name in the path, or the path itself. -/
  | nameTooLong
  | nulInName
  | notUtf8
  /-- Any other trouble, in the words of the system. -/
  | other (message : String)
deriving Repr, DecidableEq

def ReadFault.message : ReadFault → String
  | .notFound => "No such file or directory (os error 2)"
  | .isDirectory => "Is a directory (os error 21)"
  | .notDirectory => "Not a directory (os error 20)"
  | .nameTooLong => "File name too long (os error 36)"
  | .nulInName => "file name contained an unexpected NUL byte"
  | .notUtf8 => "stream did not contain valid UTF-8"
  | .other message => message

/-- What is wrong with a path, whatever is there. A path ends with a zero byte,
which counts towards its length. -/
def ReadFault.ofPath? (path : String) : Option ReadFault :=
  if path.toList.contains '\x00' then some .nulInName
  else if 4096 < path.utf8ByteSize + 1 then some .nameTooLong
  else none

/-- The bytes behind each path. -/
abbrev FileView := String → Except ReadFault ByteArray

namespace FileView

def hasEntry (view : FileView) (path : String) : Bool :=
  match view path with
  | .ok _ | .error .isDirectory => true
  | .error _ => false

def readText (view : FileView) (path : String) : Except ReadFault String := do
  match String.fromUTF8? (← view path) with
  | some text => return text
  | none => throw .notUtf8

end FileView

/-! ## Folders -/

/-- Files and directories below a directory, by the names on the way to them.
The directory itself is the one with no names. -/
structure Folder where
  files : List (List String × ByteArray)
  directories : List (List String)

/-- A place in or around a folder. -/
inductive Place where
  | directory (names : List String)
  | file (names : List String) (bytes : ByteArray)
  /-- A directory that the folder lies below. -/
  | outside

namespace Folder

def empty : Folder := ⟨[], [[]]⟩

/-- The names in a path. Empty ones come from doubled or final slashes. -/
def names (path : String) : List String :=
  (Chars.splitOn '/' path.toList).map String.ofList

/-! ### Looking up -/

/-- The file or directory at the end of these names. -/
def placeAt? (folder : Folder) (names : List String) : Option Place :=
  match folder.files.lookup names with
  | some bytes => some (.file names bytes)
  | none =>
      if folder.directories.contains names then some (.directory names)
      else none

/-- The length of the longest name, in bytes. -/
def nameLimit : Nat := 255

/-- Go one name further. -/
def step (folder : Folder) (place : Place) (name : String) :
    Except ReadFault Place :=
  match place with
  | .file _ _ => .error .notDirectory
  | .outside =>
    if name = "" || name = "." || name = ".." then .ok .outside
    else if nameLimit < name.utf8ByteSize then .error .nameTooLong
    else .error .notFound
  | .directory names =>
    if name = "" || name = "." then .ok (.directory names)
    else if name = ".." then .ok
      (if names.isEmpty then .outside else .directory names.dropLast)
    else if nameLimit < name.utf8ByteSize then .error .nameTooLong
    else
      match folder.placeAt? (names ++ [name]) with
      | some place => .ok place
      | none => .error .notFound

/-- Follow a path from the folder, or from outside if it starts with a slash. -/
def follow (folder : Folder) (path : String) : Except ReadFault Place :=
  match names path with
  | [""] => .error .notFound
  | "" :: rest => rest.foldlM folder.step .outside
  | names => names.foldlM folder.step (.directory [])

/-- The files of the folder, by path. -/
def view (folder : Folder) : FileView := fun path =>
  match ReadFault.ofPath? path with
  | some fault => .error fault
  | none => do
    match ← folder.follow path with
    | .file _ bytes => return bytes
    | _ => throw .isDirectory

/-! ### Adding -/

/-- The directories on a way from one of them, with the last one first. -/
def way (start : List String) (names : List String) : List (List String) :=
  names.foldl (fun passed name =>
    match passed with
    | [] => []
    | here :: _ =>
        (if name = ".." then here.dropLast else here ++ [name]) :: passed)
          [start]

/-- Add a file, or replace the one at its path. The directories on the way to
it are made, also those that the path leaves again. -/
def insert (folder : Folder) (path : String) (bytes : ByteArray) : Folder :=
  let names := (names path).filter fun name => name != "" && name != "."
  let passed := way [] names.dropLast
  let file := passed.headD [] ++ names.getLast?.toList
  { files := (file,
    bytes) :: folder.files.filter fun (other, _) => other != file
    directories := passed ++ folder.directories }

def ofFiles (files : List (String × ByteArray)) : Folder :=
  files.foldl (fun folder (path, bytes) => folder.insert path bytes) empty

end Folder

end Exemplar
