import SymbolicRegression.Text.Blank

/-!
# Directories

A directory of texts, in which files are looked up by path and to which they are written. A path
names a file by the directories that lead to it; a single dot stays where it is and two dots go
back. A path that begins with a slash starts at the root of the file system, of which only the
directories and devices that every system has are known; any other path starts in the directory.

## Main definitions

* `SymbolicRegression.FileError` — why a file cannot be read or written.
* `SymbolicRegression.Path` — a start and the names that lead on from there.
* `SymbolicRegression.Directory` — files by path.
* `SymbolicRegression.Directory.read`, `SymbolicRegression.Directory.write` — the text of a file.
-/

set_option autoImplicit false

namespace SymbolicRegression

/-- Why a file cannot be read or written as text. -/
inductive FileError where
  /-- There is nothing of that name. -/
  | notFound
  /-- A name inside something that is no directory. -/
  | notDirectory
  /-- A directory, where a file is needed. -/
  | isDirectory
  /-- A name or a path of more bytes than allowed. -/
  | nameTooLong
  /-- There is no room for what is to be written. -/
  | noSpace
  /-- A path with a character that ends it early. -/
  | nulInName
  /-- The bytes are not the UTF-8 form of a text. -/
  | notText
  /-- Any other reason that the system gives. -/
  | refused (reason : String)
  deriving DecidableEq, Repr

/-- The wording of an error. -/
def FileError.message : FileError → String
  | .notFound => "No such file or directory (os error 2)"
  | .notDirectory => "Not a directory (os error 20)"
  | .isDirectory => "Is a directory (os error 21)"
  | .noSpace => "No space left on device (os error 28)"
  | .nameTooLong => "File name too long (os error 36)"
  | .nulInName => "file name contained an unexpected NUL byte"
  | .notText => "stream did not contain valid UTF-8"
  | .refused reason => reason

/-- What a path may lead to. -/
inductive Entry where
  /-- A file that holds a text. -/
  | text (content : String)
  /-- A file whose bytes are no text. -/
  | bytes
  /-- A directory. -/
  | directory
  /-- A device that is always empty, whatever is written to it. -/
  | emptyDevice
  /-- A device that never ends and has no room for anything. -/
  | fullDevice
  deriving DecidableEq, Repr

/-- The greatest number of bytes of a name. -/
def nameLimit : Nat := 255

/-- The number of bytes that a path stays below. -/
def pathLimit : Nat := 4096

/-- The way to a file. -/
structure Path where
  /-- Whether the way starts at the root of the file system. -/
  absolute : Bool
  /-- The names on the way. Two slashes in a row stand for one. -/
  names : List String
  /-- Whether a slash stands at the end, so that the path can only mean a directory. -/
  slashed : Bool
  deriving DecidableEq, Repr

/-- The names between the slashes of a text. -/
def pathNames (text : String) : List String :=
  ((Text.split (· == '/') text.toList).map String.ofList).filter (· ≠ "")

/-- The path that a text spells. -/
def Path.ofText (text : String) : Except FileError Path :=
  if text.toList.contains '\x00' then .error .nulInName
  else if text = "" then .error .notFound
  else if pathLimit ≤ text.utf8ByteSize then .error .nameTooLong
  else .ok {
    absolute := text.toList.head? = some '/'
    names := pathNames text
    slashed := text.toList.getLast? = some '/' }

/-- A directory: what each path below it leads to. -/
structure Directory where
  /-- The entries by the names that lead to them. -/
  entries : List (List String × Entry)
  deriving DecidableEq, Repr

namespace Directory

/-- The names that lead from the root to the directory. No path spells the last one, because a
slash is part of it. -/
def home : List String := ["tmp", "/"]

/-- The directories at the root that every system has. -/
def rootDirectories : List String :=
  ["bin", "boot", "dev", "etc", "home", "lib", "media", "mnt", "opt", "proc", "root", "run", "sbin",
   "srv", "sys", "tmp", "usr", "var"]

/-- What every system has at some place. -/
def systemEntry? : List String → Option Entry
  | [] => some .directory
  | ["dev", "null"] => some .emptyDevice
  | ["dev", "full"] => some .fullDevice
  | [name] => if name ∈ rootDirectories then some .directory else none
  | place => if place = home then some .directory else none

/-- The directory that holds the given entries. -/
def ofList (entries : List (String × Entry)) : Directory :=
  ⟨entries.map fun (path, entry) => (home ++ pathNames path, entry)⟩

/-- What stands at a place. The way to an entry leads through directories. -/
def entry? (d : Directory) (place : List String) : Option Entry :=
  match systemEntry? place with
  | some entry => some entry
  | none =>
    match d.entries.lookup place with
    | some entry => some entry
    | none => if d.entries.any fun (path, _) => place.isPrefixOf path then some .directory else none

/-- The place of a name in the directory at a place, which has to be one. -/
def enter (d : Directory) (place : List String) (name : String) : Except FileError (List String) :=
  match d.entry? place with
  | none => .error .notFound
  | some .directory =>
    if name = "." then .ok place
    else if name = ".." then .ok place.dropLast
    else if nameLimit < name.utf8ByteSize then .error .nameTooLong
    else .ok (place ++ [name])
  | some _ => .error .notDirectory

/-- Go along names from a place, and give the place where they lead. -/
def walk (d : Directory) (place names : List String) : Except FileError (List String) :=
  names.foldlM d.enter place

/-- Where a path starts. -/
def startOf (path : Path) : List String := if path.absolute then [] else home

/-- The text of the file that a path leads to. -/
def read (d : Directory) (text : String) : Except FileError String := do
  let path ← Path.ofText text
  let place ← d.walk (startOf path) path.names
  match d.entry? place with
  | none => throw .notFound
  | some .directory => throw .isDirectory
  | some entry =>
    if path.slashed then throw .notDirectory
    match entry with
    | .text content => return content
    | .emptyDevice => return ""
    | .fullDevice => throw (.refused "out of memory")
    | _ => throw .notText

/-- Put a text into the file that a path leads to, which is made if it does not exist. What stands
before the last name has to be a directory, and then a path that can only mean a directory is
refused, whether there is one or not. -/
def write (d : Directory) (text content : String) : Except FileError Directory := do
  let path ← Path.ofText text
  let place ← d.walk (startOf path) path.names.dropLast
  match path.names.getLast? with
  | none => throw .isDirectory
  | some name =>
    let place ← d.enter place "."
    if path.slashed ∨ name = "." ∨ name = ".." then throw .isDirectory
    let file ← d.enter place name
    match d.entry? file with
    | some .directory => throw .isDirectory
    | some .emptyDevice => return d
    | some .fullDevice => throw .noSpace
    | _ => return ⟨(file, .text content) :: d.entries.filter fun (place, _) => place ≠ file⟩

end Directory

end SymbolicRegression
