/-
  Accumulator/Command/Directory.lean
  ==================================
  **A flat directory of files.**

  A command runs in a directory that holds files and nothing else.  A path is split
  at its slashes into names, the empty ones left out.  All names but the last are
  entered one after the other: a single dot stays, a double dot goes up, and any other
  name fails, because what it names is a file or does not exist.  The last name is then
  what is read or written in the place that was reached; without one, or with dots for
  it, the path is that of a directory.

  A slash behind the last name asks for a directory: a file is not one to be read, and
  none can be written.  Of what lies outside only the directories above are known, so
  nothing is found there, and a file written there is not seen here.
-/

namespace Accumulator.Command

/-- Why a file cannot be read or written. -/
inductive FileError where
  | notFound
  | notDirectory
  | isDirectory
  | nameTooLong
  /-- Any other reason, in the words of the system. -/
  | other (text : String)
deriving DecidableEq, Repr

/-- Wording of a file error. -/
def FileError.message : FileError → String
  | notFound => "No such file or directory (os error 2)"
  | notDirectory => "Not a directory (os error 20)"
  | isDirectory => "Is a directory (os error 21)"
  | nameTooLong => "File name too long (os error 36)"
  | other text => text

/-- The contents of a file. -/
abbrev Contents := List UInt8

/-! ### Paths -/

/-- The largest size of a name, in bytes. -/
def nameSizeMax : Nat := 255

/-- The largest size of a path, in bytes. -/
def pathSizeMax : Nat := 4095

/-- The names that a path is made of. -/
def pathNames (path : String) : List String := (path.splitOn "/").filter (· != "")

/-- Whether a name is made of dots that stand for a directory. -/
def isDots (name : String) : Bool := name == "." || name == ".."

/-- The places that a path can lead through. -/
inductive Place where
  /-- The directory itself. -/
  | here
  /-- A directory above it. -/
  | above
deriving DecidableEq, Repr

/-- The place in which the first name of a path is looked up. -/
def Place.start (path : String) : Place := if path.startsWith "/" then .above else .here

/-- What a path leads to. -/
inductive Target where
  | directory
  /-- A name in a place, with a slash behind it or not. -/
  | entry (place : Place) (name : String) (slashed : Bool)
deriving DecidableEq, Repr

/-! ### Files -/

/-- Files by name, each name once. -/
structure Directory where
  files : List (String × Contents) := []
deriving Repr

namespace Directory

/-- The directory with a file put in place of the one of its name, or added. -/
def put (d : Directory) (name : String) (contents : Contents) : Directory :=
  ⟨(d.files.filter fun file => file.1 != name) ++ [(name, contents)]⟩

/-- The directory after the files were put there one after the other. -/
def ofFiles (files : List (String × Contents)) : Directory :=
  files.foldl (fun d file => d.put file.1 file.2) {}

/-- The contents of the file with a name, in a place. -/
def find? (d : Directory) : Place → String → Option Contents
  | .here, name => d.files.lookup name
  | .above, _ => none

/-- Looks a name up in a place. -/
def lookup (d : Directory) (place : Place) (name : String) : Except FileError Contents :=
  if name.utf8ByteSize > nameSizeMax then .error .nameTooLong
  else
    match d.find? place name with
    | some contents => .ok contents
    | none => .error .notFound

/-- The place that a name leads to from a place. -/
def enter (d : Directory) (place : Place) (name : String) : Except FileError Place :=
  if name == "." then .ok place
  else if name == ".." then .ok .above
  else
    match d.lookup place name with
    | .ok _ => .error .notDirectory
    | .error e => .error e

/-- What a path leads to. -/
def locate (d : Directory) (path : String) : Except FileError Target :=
  if path.isEmpty then .error .notFound
  else if path.utf8ByteSize > pathSizeMax then .error .nameTooLong
  else do
    let names := pathNames path
    let place ← names.dropLast.foldlM d.enter (Place.start path)
    match names.getLast? with
    | none => .ok .directory
    | some name =>
      .ok (if isDots name then .directory else .entry place name (path.endsWith "/"))

/-- The contents of the file that a path names. -/
def read (d : Directory) (path : String) : Except FileError Contents := do
  match ← d.locate path with
  | .directory => .error .isDirectory
  | .entry place name slashed =>
    let contents ← d.lookup place name
    if slashed then .error .notDirectory else .ok contents

/-- Writes the file that a path names. -/
def write (d : Directory) (path : String) (contents : Contents) : Except FileError Directory := do
  match ← d.locate path with
  | .directory => .error .isDirectory
  | .entry place name slashed =>
    if slashed then .error .isDirectory
    else if name.utf8ByteSize > nameSizeMax then .error .nameTooLong
    else
      match place with
      | .here => .ok (d.put name contents)
      | .above => .ok d

end Directory

end Accumulator.Command
