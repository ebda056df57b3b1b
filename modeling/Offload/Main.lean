import Offload.CommandLine

/-!
# The program

The program reads the files that its command names, runs the command on them, and
prints what it leaves behind. It starts no other programs: an assembler counts as
one that cannot be started.
-/

namespace Offload.Main

/-- An error of the host, in its words. -/
def hostError : IO.Error → FileError
  | .noFileOrDirectory .. => .missing
  | .inappropriateType _ code details | .permissionDenied _ code details =>
    .other s!"{details} (os error {code})"
  | e => .other (toString e)

/-- Read a file as a text. -/
def readText (path : String) : IO (Except FileError String) := do
  try
    return textOfBytes (← IO.FS.readBinFile path)
  catch e =>
    return .error (hostError e)

/-- The host, with the files that a program reads. -/
def host (files : List (String × Except FileError String)) : Cubin.Host where
  read path := (files.lookup path).getD (.error .missing)
  scratch _ := .ok ()
  assemble _ _ := .notStarted FileError.missing.message

end Offload.Main

open Offload in
/-- The program. -/
def main (args : List String) : IO UInt32 := do
  let paths := match CommandLine.parse args with
    | .ok c => c.paths
    | .error _ => []
  let files ← paths.mapM fun path => return (path, ← Main.readText path)
  match CommandLine.run (Main.host files) args with
  | .ok exit =>
    (← IO.getStdout).putStr exit.stdout
    (← IO.getStderr).putStr exit.stderr
    return exit.code.toUInt32
  | .error fault =>
    (← IO.getStderr).putStrLn (fault.message.getD "internal error")
    return 101
