/-
A directory with plain files as a value: what a run that starts there reads at
a path. A path is followed part by part, and the first part that leads nowhere
decides how the reading fails. Beyond the directory there is nothing but the
null device.
-/
import StackCompiler.CommandLine.Run

namespace StackCompiler
namespace CommandLine

/-- Why a file cannot be read. -/
inductive ReadError where
  | missing
  | denied
  | notADirectory
  | isADirectory
  | nameTooLong
deriving DecidableEq, Repr

namespace ReadError

def code : ReadError → Nat
  | missing => 2
  | denied => 13
  | notADirectory => 20
  | isADirectory => 21
  | nameTooLong => 36

def ofCode? (n : Nat) : Option ReadError :=
  [missing, denied, notADirectory, isADirectory, nameTooLong].find? (·.code == n)

def text : ReadError → String
  | missing => "No such file or directory"
  | denied => "Permission denied"
  | notADirectory => "Not a directory"
  | isADirectory => "Is a directory"
  | nameTooLong => "File name too long"

def message (e : ReadError) : String := s!"{e.text} (os error {e.code})"

end ReadError

/-- The files of a directory, each with the parts of its path. -/
structure Directory where
  files : List (List String × Bytes)

namespace Directory

def nameLimit : Nat := 255

def pathLimit : Nat := 4096

/-- Whether a part of a path stays where it is. -/
def isIdle (part : String) : Bool := part = "" || part = "."

def ofFiles (files : List (String × Bytes)) : Directory :=
  ⟨files.map fun (path, content) => ((path.splitOn "/").filter (!isIdle ·), content)⟩

/-- Whether a place is a directory: the one at hand, or one on the way to a file. -/
def isDirectory (d : Directory) (place : List String) : Bool :=
  place.isEmpty || d.files.any fun (path, _) => place.isPrefixOf path && place ≠ path

def contains (d : Directory) (place : List String) : Bool :=
  d.isDirectory place || (d.files.lookup place).isSome

/-- Follows the parts of a path from a place, which is none beyond the directory. -/
def follow (d : Directory) :
    Option (List String) → List String → Except ReadError (Option (List String))
  | place, [] => .ok place
  | none, part :: rest =>
    if isIdle part || part = ".." then d.follow none rest
    else if part.utf8ByteSize > nameLimit then .error .nameTooLong
    else .error .missing
  | some place, part :: rest =>
    if !d.isDirectory place then .error .notADirectory
    else if isIdle part then d.follow (some place) rest
    else if part = ".." then d.follow (if place.isEmpty then none else some place.dropLast) rest
    else if part.utf8ByteSize > nameLimit then .error .nameTooLong
    else if d.contains (place ++ [part]) then d.follow (some (place ++ [part])) rest
    else .error .missing

def read (d : Directory) (path : String) : Except ReadError Bytes :=
  if path.utf8ByteSize ≥ pathLimit then .error .nameTooLong
  else if path = "/dev/null" then .ok #[]
  else
    match d.follow (if path.startsWith "/" then none else some []) (path.splitOn "/") with
    | .error e => .error e
    | .ok none => .error .isADirectory
    | .ok (some place) =>
      match d.files.lookup place with
      | some content => .ok content
      | none => .error .isADirectory

def source (d : Directory) : Files := fun path => (d.read path).mapError ReadError.message

end Directory
end CommandLine
end StackCompiler
