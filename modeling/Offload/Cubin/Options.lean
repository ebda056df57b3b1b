import Offload.Ptx.Target

/-!
# Options of the serialization

What the user decides about the serialization of device modules, and the
arguments of the assembler that follow from it.
-/

namespace Offload.Cubin

/-- The options of the serialization. -/
structure Options where
  triple : String := "nvptx64-nvidia-cuda"
  chip : String := "sm_35"
  features : String := "+ptx60"
  /-- The optimization level for device code, which is checked when it is used. -/
  level : Int := 3
  /-- The optimization level that the assembler is asked for. -/
  assemblerLevel : Nat := 3
  assemblerPath : String := "ptxas"
  /-- The device library, which is linked into every module. -/
  libraryPath : String := "libdevice.ll"
  /-- Print the device code before and after the optimization, and the assembly. -/
  showIntermediate : Bool := false
  /-- The directory for the files of the assembler, if not the usual one. -/
  scratchDirectory : Option String := none
  deriving DecidableEq, Repr, Inhabited

namespace Options

variable (o : Options)

def target : Ptx.Target := ⟨o.triple, o.chip, o.features⟩

/-- The arguments with which the assembler turns one file into another. -/
def assemblerArgs [Ptx.TripleLibrary] (input output : String) : List String :=
  [if Ptx.isWide o.triple then "-m64" else "-m32", "--gpu-name", o.chip, "--opt-level",
    toString o.assemblerLevel, "--verbose", "--output-file", output, input]

end Options

end Offload.Cubin
