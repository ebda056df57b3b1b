import Offload.Cubin.Options
import Offload.File

/-!
# The host

What the library needs of the machine that it runs on: texts of files, scratch
files, and the assembler. A `Host` gives them as functions, so that what the
library does is a function of its inputs and of the host.
-/

namespace Offload.Cubin

/-- What comes of running the assembler. Its exit status does not matter. -/
inductive AssemblerRun
  /-- The assembler could not be started, in the words of the host. -/
  | notStarted (reason : String)
  /-- The assembler ended and left this in its output file. -/
  | ended (output : Except FileError (List UInt8))
  deriving Repr

/-- The machine that the library runs on. -/
structure Host where
  /-- Read a file. -/
  read : (path : String) → Except FileError String
  /-- Make the scratch files for the assembler in a directory, or in the usual
      one; the failure is in the words of the host. -/
  scratch : (directory : Option String) → Except String Unit
  /-- Run the assembler on an input file with this text. -/
  assemble : Options → (input : String) → AssemblerRun

/-- The text file with a path. -/
def Host.file (host : Host) (path : String) : TextFile := ⟨path, host.read path⟩

end Offload.Cubin
