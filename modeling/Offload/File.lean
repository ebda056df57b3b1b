/-!
# Files

What comes of reading files, as plain values: the functions of the library take
the contents of the files that they need. Only the program itself touches the
files of its host.
-/

namespace Offload

/-- Why a file cannot be read. -/
inductive FileError
  | missing
  /-- The bytes of the file are no text in UTF-8. -/
  | notText
  /-- Another reason, in the words of the host. -/
  | other (reason : String)
  deriving DecidableEq, Repr

/-- The words for an error. -/
def FileError.message : FileError → String
  | missing => "No such file or directory (os error 2)"
  | notText => "stream did not contain valid UTF-8"
  | other reason => reason

/-- A text file, by its path, and what comes of reading it. -/
structure TextFile where
  path : String
  content : Except FileError String

/-- The text of a file of bytes. -/
def textOfBytes (data : ByteArray) : Except FileError String :=
  match String.fromUTF8? data with
  | some text => .ok text
  | none => .error .notText

end Offload
