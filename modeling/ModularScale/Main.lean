import ModularScale.CommandLine.Run

/-! # The program `modscale` -/

namespace ModularScale.CommandLine

/-- The number of a system error, which some calls give negated. -/
def errorNumber (code : UInt32) : UInt32 :=
  min code (-code)

/-- The error that the system reports, for the kinds that have a message of their own. -/
def FileError.ofSystem : IO.Error → FileError
  | .noFileOrDirectory .. => .missing
  | .permissionDenied .. => .other "Permission denied (os error 13)"
  | e@(.inappropriateType _ code _) =>
    match errorNumber code with
    | 20 => .notDirectory
    | 21 => .isDirectory
    | _ => .other (toString e)
  | e@(.invalidArgument _ code _) =>
    if errorNumber code = 36 then .nameTooLong else .other (toString e)
  | e => .other (toString e)

def attempt (action : IO α) : IO (Except FileError α) := do
  try return .ok (← action)
  catch e => return .error (.ofSystem e)

/-- Reads a stream to its end. -/
partial def readToEnd (stream : IO.FS.Stream) (read : ByteArray) : IO ByteArray := do
  let bytes ← stream.read 65536
  if bytes.isEmpty then return read else readToEnd stream (read ++ bytes)

def systemHost : Host IO where
  readFile path := attempt (IO.FS.readBinFile path)
  readInput := do readToEnd (← IO.getStdin) .empty
  writeFile path text := attempt (IO.FS.writeFile path text)
  writeOutput text := do
    let stdout ← IO.getStdout
    stdout.putStr text
    stdout.flush
  report := IO.eprint

end ModularScale.CommandLine

open ModularScale.CommandLine in
def main (args : List String) : IO UInt32 := do
  let status ← run systemHost (Request.ofCall args (← IO.getEnv "MODSCALE_CONFIG"))
  return status.toUInt32
