/-! The files of a working directory, and where paths lead among them. A place is a list
of names from the working directory down; above it, and from the root of absolute paths
down, directories exist but nothing in them is known. -/
namespace GrammarFuzz

inductive FileEntry where
  | file (bytes : ByteArray)
  | directory

inductive FileError where
  | absent
  | notADirectory
  | isADirectory
  | nameTooLong
  | notText
  deriving DecidableEq

def FileError.message : FileError → String
  | absent => "I/O error: No such file or directory (os error 2)"
  | notADirectory => "I/O error: Not a directory (os error 20)"
  | isADirectory => "I/O error: Is a directory (os error 21)"
  | nameTooLong => "I/O error: File name too long (os error 36)"
  | notText => "I/O error: stream did not contain valid UTF-8"

structure Files where
  entries : List (List String × FileEntry)

namespace Files

def entry? (files : Files) (place : List String) : Option FileEntry := files.entries.lookup place

/-- The working directory, one above it or the root; an entry that is a directory, or what
has entries below it. -/
def isDirectory (files : Files) (place : List String) : Bool :=
  place.all (· == "..") || place == ["/"] ||
  (match files.entry? place with
    | some .directory => true
    | some (.file _) => false
    | none => files.entries.any (fun entry => place.isPrefixOf entry.1))

/-- The place itself if it is a directory; only directories lead on. -/
def enter (files : Files) (place : List String) : Except FileError (List String) :=
  if files.isDirectory place then .ok place
  else .error (if (files.entry? place).isSome then .notADirectory else .absent)

/-- The directory above one. The root is its own; above the working directory the way up
is kept. -/
def above (place : List String) : List String :=
  if place == ["/"] then place
  else if place.all (· == "..") then ".." :: place
  else place.dropLast

/-- Where a name leads from a directory. Empty names and dots stay, two dots go up. -/
def step (directory : List String) (name : String) : Except FileError (List String) :=
  if name = "" ∨ name = "." then .ok directory
  else if name = ".." then .ok (above directory)
  else if 255 < name.utf8ByteSize then .error .nameTooLong
  else .ok (directory ++ [name])

/-- Follow names from a place, which must be a directory if any are left. -/
def follow (files : Files) : List String → List String → Except FileError (List String)
  | place, [] => .ok place
  | place, name :: rest => do
      let directory ← files.enter place
      let place ← step directory name
      follow files place rest

/-- Where a path starts, and its names between slashes. -/
def names (path : String) : Except FileError (List String × List String) :=
  if path.isEmpty then .error .absent
  else if 4095 < path.utf8ByteSize then .error .nameTooLong
  else .ok (if path.toList.head? = some '/' then ["/"] else [], path.splitOn "/")

/-- The bytes of the file at a path; none if there is no file. -/
def bytes? (files : Files) (path : String) : Option ByteArray :=
  match names path >>= fun (start, names) => files.follow start names with
  | .ok place =>
      match files.entry? place with
      | some (.file bytes) => some bytes
      | _ => none
  | .error _ => none

/-- Write a file, replacing what it held. The directory it lies in must exist. Slashes at
the end and dots name no file, and are refused before the last name is looked up. -/
def write (files : Files) (path text : String) : Except FileError Files := do
  let (start, names) ← names path
  let reversed := names.reverse.dropWhile (· == "")
  let directory ← files.enter (← files.follow start (reversed.drop 1).reverse)
  let name := reversed.headD ""
  if names.getLast? = some "" ∨ name = "." ∨ name = ".." then throw .isADirectory
  let place ← step directory name
  if files.isDirectory place then throw .isADirectory
  pure ⟨(place, .file text.toUTF8) :: files.entries.filter (fun entry => entry.1 != place)⟩

end Files
end GrammarFuzz
