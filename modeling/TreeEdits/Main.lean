import TreeEdits.CommandLine

/-!
# TreeEdits.Main

The program: reads the files that the command line names, prints the report and exits with its
status.
-/

namespace TreeEdits

/-- The reason of an error of the system by its number, which may come with its sign changed. -/
def ReadError.ofNumber (code : UInt32) (details : String) : ReadError :=
  let number := if code < 0x80000000 then code.toNat else (0 - code).toNat
  let reason := match number with
    | 13 => "Permission denied"
    | 20 => "Not a directory"
    | 21 => "Is a directory"
    | _ => details
  .other (reason ++ " (os error " ++ toString number ++ ")")

def ReadError.ofSystem : IO.Error → ReadError
  | .noFileOrDirectory _ _ _ => .notFound
  | .inappropriateType _ code details => .ofNumber code details
  | .permissionDenied _ code details => .ofNumber code details
  | .invalidArgument _ code details => .ofNumber code details
  | .otherError code details => .ofNumber code details
  | e => .other (toString e)

def readPath (path : String) : IO (Except ReadError ByteArray) := do
  try
    return .ok (← IO.FS.readBinFile path)
  catch e =>
    return .error (.ofSystem e)

end TreeEdits

open TreeEdits in
def main (args : List String) : IO UInt32 := do
  let request := Request.ofArguments args
  let files ← match request with
    | .record _ treePath scriptPath _ => do
      let tree ← readPath treePath
      let script ← readPath scriptPath
      pure fun path => if path = treePath then tree else script
    | _ => pure fun _ => .error .notFound
  let exit := CommandLine.answer files request
  if request matches .misuse then
    IO.eprintln ("usage: tugzip [--compact] [--log-level LEVEL] "
      ++ "record --tree PATH --script PATH [--mode MODE]")
  IO.print exit.output
  return exit.status.toUInt32
