import ModularScale.CommandLine.Arguments
import ModularScale.Document.Print
import ModularScale.Sizing.Pass
import ModularScale.Text.ControlSequence

/-! # Runs of the program

The program reads all that it needs before it writes anything. What it reads and writes is up to
its host, so that the same program works on real files and on given ones.
-/

namespace ModularScale.CommandLine

inductive FileError
  | missing
  | isDirectory
  | notDirectory
  | nameTooLong
  | notText
  | other (message : String)
deriving DecidableEq, Repr

def FileError.message : FileError → String
  | missing => "No such file or directory (os error 2)"
  | isDirectory => "Is a directory (os error 21)"
  | notDirectory => "Not a directory (os error 20)"
  | nameTooLong => "File name too long (os error 36)"
  | notText => "stream did not contain valid UTF-8"
  | other message => message

/-- What the program needs of the system it runs on. -/
structure Host (m : Type → Type) where
  readFile : String → m (Except FileError ByteArray)
  readInput : m ByteArray
  writeFile : String → String → m (Except FileError Unit)
  writeOutput : String → m Unit
  /-- Writes a text about the run. -/
  report : String → m Unit

/-- Why a run ends before its result is written. -/
inductive Failure
  | unreadableSettings (path : String) (e : FileError)
  | malformedSettings
  | invalidSettings (e : SettingsError)
  | unreadableFile (path : String) (e : FileError)
  | unreadableInput (e : FileError)
  | unwritable (path : String) (e : FileError)

namespace Failure

/-- The message of a failure, without the reason for which a configuration is malformed. -/
def message : Failure → String
  | unreadableSettings path e =>
    "failed to read configuration from " ++ path ++ ": " ++ e.message ++ ": " ++ e.message
  | malformedSettings => "invalid configuration: "
  | invalidSettings e => "invalid breakpoint configuration: " ++ e.message
  | unreadableFile path e => "failed to read " ++ path ++ ": " ++ e.message
  | unreadableInput e => "failed to read stdin: " ++ e.message
  | unwritable path e => "failed to write " ++ path ++ ": " ++ e.message

end Failure

def decode (bytes : ByteArray) : Except FileError String :=
  match String.fromUTF8? bytes with
  | some text => .ok text
  | none => .error .notText

/-- Indents all lines but the first. -/
def indentLines (cs : List Char) : List Char :=
  cs.flatMap fun c => if c = '\n' then ['\n', ' ', ' ', ' ', ' '] else [c]

section

variable {m : Type → Type} [Monad m]

namespace Host

def readText (host : Host m) (path : String) : m (Except FileError String) := do
  return (← host.readFile path).bind decode

/-- Reports a message as a terminal shows it. -/
def log (host : Host m) (message : String) : m Unit :=
  host.report (String.ofList (Text.shown (indentLines message.toList ++ ['\n'])))

end Host

/-- The configuration in a file, or the default one without a file. -/
def loadSettings (host : Host m) : Option String → m (Except Failure Settings)
  | none => return .ok {}
  | some path => do
    match ← host.readText path with
    | .error e => return .error (.unreadableSettings path e)
    | .ok text =>
      match Settings.ofText? text with
      | none => return .error .malformedSettings
      | some config => return .ok config

def loadTable (host : Host m) (path : Option String) : m (Except Failure Breakpoints) := do
  match ← loadSettings host path with
  | .error e => return .error e
  | .ok config =>
    match Breakpoints.ofSettings config with
    | .error e => return .error (.invalidSettings e)
    | .ok table => return .ok table

/-- The style sheet in a file, or the one given as input without a file. -/
def loadSheet (host : Host m) : Option String → m (Except Failure String)
  | none => do
    match decode (← host.readInput) with
    | .error e => return .error (.unreadableInput e)
    | .ok text => return .ok text
  | some path => do
    match ← host.readText path with
    | .error e => return .error (.unreadableFile path e)
    | .ok text => return .ok text

def store (host : Host m) (path : Option String) (text : String) : m (Except Failure Unit) := do
  match path with
  | none =>
    host.writeOutput text
    return .ok ()
  | some path =>
    match ← host.writeFile path text with
    | .error e => return .error (.unwritable path e)
    | .ok _ => return .ok ()

/-- The result as it is written: a style sheet, or a JSON text. -/
def render (json : Bool) (d : Document) : String :=
  if json then String.ofList (d.toJson.pretty 0 ++ ['\n']) else d.print

/-- The messages about a pass: its warnings and errors. -/
def reports (p : Pass) : List String :=
  (p.log.filter (·.level != .debug)).map Sizing.Event.describe

/-- The exit status of a run whose result is written. -/
def statusOf (strict : Bool) (report : Report) : UInt8 :=
  if strict && !report.isClean then 2 else 0

/-- Works on one style sheet, and gives the exit status unless it fails. -/
def work (host : Host m) (o : Options) : m (Except Failure UInt8) := do
  match ← loadTable host o.config with
  | .error e => return .error e
  | .ok table =>
    match ← loadSheet host o.input with
    | .error e => return .error e
    | .ok css =>
      let pass := Pass.run table (.ofSheet (.ofText css))
      for message in reports pass do
        host.log message
      match ← store host o.output (render o.json pass.document) with
      | .error e => return .error e
      | .ok _ => return .ok (statusOf o.strict pass.report)

/-- Does what a call asks for, and gives the exit status. The texts of the help and of a misuse are
left out. -/
def run (host : Host m) : Request → m UInt8
  | .version => do
    host.writeOutput "modscale 0.0.0\n"
    return 0
  | .help => return 0
  | .misuse => return 2
  | .work o => do
    match ← work host o with
    | .ok status => return status
    | .error e =>
      host.log ("ERROR " ++ e.message)
      return 1

end

end ModularScale.CommandLine
