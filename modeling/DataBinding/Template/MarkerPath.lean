-- Paths of marker files. A file is found by walking its path, one name at a time, from the root or from
-- the working directory; the first name that cannot be walked decides why there is no file to read.
-- Only the standard places of a Unix system are known, and nothing in the working directory is.
import DataBinding.Text.Search

namespace DataBinding.MarkerPath

/-! ## Refusals -/

/-- Why no file can be read at a path. -/
inductive Refusal where
  | nulCharacter
  | notFound
  | notDirectory
  | isDirectory
  | tooLong
deriving DecidableEq, Repr

def Refusal.text : Refusal → String
  | .nulCharacter => "file name contained an unexpected NUL byte"
  | .notFound => "No such file or directory (os error 2)"
  | .notDirectory => "Not a directory (os error 20)"
  | .isDirectory => "Is a directory (os error 21)"
  | .tooLong => "File name too long (os error 36)"

/-- What is said about a path that is refused. -/
def Refusal.message (r : Refusal) (path : String) : String :=
  "failed to read " ++ path ++ ": " ++ r.text

/-! ## Places -/

/-- Where a walk may stand: at a known directory, by its names from the root on, at a directory of which
nothing is known, or at a file. -/
inductive Place where
  | directory (names : List String)
  | unknownDirectory
  | file
deriving DecidableEq, Repr

def standardDirectories : List (List String) :=
  [["bin"], ["boot"], ["dev"], ["dev", "shm"], ["etc"], ["home"], ["lib"], ["media"], ["mnt"],
   ["opt"], ["root"], ["run"], ["sbin"], ["srv"], ["tmp"], ["usr"], ["usr", "bin"],
   ["usr", "include"], ["usr", "lib"], ["usr", "local"], ["usr", "sbin"], ["usr", "share"], ["var"],
   ["var", "lib"], ["var", "log"], ["var", "tmp"]]

def standardFiles : List (List String) :=
  [["bin", "sh"], ["dev", "full"], ["dev", "null"], ["dev", "random"], ["dev", "stderr"],
   ["dev", "stdin"], ["dev", "stdout"], ["dev", "tty"], ["dev", "urandom"], ["dev", "zero"],
   ["etc", "group"], ["etc", "hostname"], ["etc", "hosts"], ["etc", "passwd"],
   ["etc", "resolv.conf"], ["usr", "bin", "env"]]

/-- The standard place with the given names. -/
def place? (names : List String) : Option Place :=
  if names ∈ standardFiles then some .file
  else if names ∈ standardDirectories then some (.directory names)
  else none

/-! ## Walking -/

/-- The most bytes that a name has. -/
def longestName : Nat := 255

/-- The most bytes that a path has. -/
def longestPath : Nat := 4095

/-- Walks one name on from a place. Nothing is inside a file, not even an empty name. -/
def enter : Place → String → Except Refusal Place
  | .file, _ => .error .notDirectory
  | place, "" => .ok place
  | place, "." => .ok place
  | .directory names, ".." => .ok (.directory names.dropLast)
  | .unknownDirectory, ".." => .ok .unknownDirectory
  | place, name =>
    if longestName < name.utf8ByteSize then .error .tooLong
    else match place with
      | .directory names =>
        match place? (names ++ [name]) with
        | some inside => .ok inside
        | none => .error .notFound
      | _ => .error .notFound

/-- The place at the end of a path. -/
def walk (path : String) : Except Refusal Place :=
  let (first, others) := Text.pieces '/' path.toList
  let start := if first.isEmpty then .directory [] else .unknownDirectory
  ((first :: others).map String.ofList).foldlM enter start

/-- Why no file can be read at a path; none if there is a file. -/
def refusal? (path : String) : Option Refusal :=
  if path.contains '\x00' then some .nulCharacter
  else if longestPath < path.utf8ByteSize then some .tooLong
  else if path.isEmpty then some .notFound
  else match walk path with
    | .error refusal => some refusal
    | .ok .file => none
    | .ok _ => some .isDirectory

end DataBinding.MarkerPath
