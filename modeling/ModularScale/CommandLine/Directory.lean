import ModularScale.CommandLine.Run

/-! # Runs in a directory

A host made of the files of one directory, in which a run shows all it does. A file above the
directory goes by its path from there.
-/

namespace ModularScale.CommandLine

/-- A directory with the files in it, the input of a run, and what the run has written. -/
structure Session where
  files : List (String × ByteArray)
  input : ByteArray
  output : String := ""
  reports : List String := []

/-- A path: a directory that is there, the names behind it, and whether a slash is at the end. -/
structure Path where
  start : String
  names : List String
  isSlashed : Bool

/-- Splits a path at its slashes. Only the directory itself and those above it are there. -/
def Path.ofText (text : String) : Path :=
  let names := (text.splitOn "/").filter (· != "")
  let isDirectory name := name == "." || name == ".."
  let ups := (names.takeWhile isDirectory).filter (· == "..")
  { start := if text.startsWith "/" then "/" else String.join (ups.map (· ++ "/"))
    names := names.dropWhile isDirectory
    isSlashed := text.endsWith "/" }

/-- The most bytes of a name in a directory. -/
def nameLimit : Nat := 255

/-- The most bytes of a path. -/
def pathLimit : Nat := 4095

/-- What a path leads to. -/
inductive Place
  | file (name : String) (content : ByteArray)
  /-- A name that no file has, in a directory that is there. -/
  | vacant (name : String)
  /-- A name with a slash behind it, which cannot be read and can only be that of a directory. -/
  | slashed (e : FileError)
  | failure (e : FileError)

/-- Why a place is no directory. -/
def Place.refusal : Place → FileError
  | file .. => .notDirectory
  | vacant _ => .missing
  | slashed e | failure e => e

namespace Session

def file? (s : Session) (name : String) : Option ByteArray :=
  s.files.lookup name

def placeOfName (s : Session) (start name : String) : Place :=
  if nameLimit < name.utf8ByteSize then .failure .nameTooLong
  else match s.file? (start ++ name) with
    | some content => .file (start ++ name) content
    | none => .vacant (start ++ name)

def placeOfPath (s : Session) (path : Path) : Place :=
  match path.names with
  | [] => .failure .isDirectory
  | [name] =>
    let place := s.placeOfName path.start name
    if path.isSlashed then .slashed place.refusal else place
  | name :: _ :: _ => .failure (s.placeOfName path.start name).refusal

def place (s : Session) (text : String) : Place :=
  if text.isEmpty then .failure .missing
  else if pathLimit < text.utf8ByteSize then .failure .nameTooLong
  else s.placeOfPath (.ofText text)

def read (s : Session) (path : String) : Except FileError ByteArray :=
  match s.place path with
  | .file _ content => .ok content
  | .vacant _ => .error .missing
  | .slashed e | .failure e => .error e

def write (s : Session) (path text : String) : Except FileError Session :=
  match s.place path with
  | .file name _ | .vacant name =>
    .ok { s with files := (name, text.toUTF8) :: s.files.filter (·.1 != name) }
  | .slashed _ => .error .isDirectory
  | .failure e => .error e

/-- The host that this directory is. -/
def host : Host (StateM Session) where
  readFile path := do return (← get).read path
  readInput := do return (← get).input
  writeFile path text := do
    match (← get).write path text with
    | .ok s =>
      set s
      return .ok ()
    | .error e => return .error e
  writeOutput text := modify fun s => { s with output := s.output ++ text }
  report text := modify fun s => { s with reports := s.reports ++ [text] }

/-- Runs the program, and gives its exit status and the session after it. -/
def run (s : Session) (args : List String) (config : Option String) : UInt8 × Session :=
  (CommandLine.run host (Request.ofCall args config)).run s

end Session

end ModularScale.CommandLine
