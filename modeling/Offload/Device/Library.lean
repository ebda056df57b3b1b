import Offload.Device.Defect
import Offload.Device.Link
import Offload.Device.Read
import Offload.File

/-!
# The device library

Mathematical functions come from a library of device code, which is linked into
a module (`Module.lowerWith`). After that the module is complete: all of its
functions but the kernels become internal, and the intrinsics for integer powers
become calls of the library.

A library that cannot be read, or cannot be linked, is left out, and the module
stays as it is.
-/

namespace Offload.Device

/-- Why a library cannot be used. -/
inductive LibraryError
  | unreadable (path : String) (e : FileError)
  | malformed (path : String) (e : ReadError)
  | defective (path : String) (defects : List Defect)
  deriving DecidableEq, Repr

/-- The words for an error. -/
def LibraryError.message : LibraryError → String
  | unreadable path e => s!"could not read {path}: {e.message}"
  | malformed path e => s!"could not parse {path}: {e.text}"
  | defective path defects => s!"{path} is malformed: {defectsText defects}"

/-- The library in a file, which must be well formed. -/
def loadLibrary (file : TextFile) : Except LibraryError Module := do
  let text ← file.content.mapError (.unreadable file.path)
  let library ← (Module.read file.path text).mapError (.malformed file.path)
  if library.defects.isEmpty then return library
  else throw (.defective file.path library.defects)

namespace Module

variable (m : Module)

/-! ## Linkage -/

/-- Make all functions but the kernels internal. -/
def internalize : Module :=
  let kernels := m.kernels
  m.mapFunctions fun f =>
    if f.isDeclaration || kernels.contains f.name then f else { f with linkage := .internal }

/-! ## Integer powers -/

/-- Whether a name is that of an intrinsic for integer powers. -/
def isPowerName (name : String) : Bool := name.startsWith "llvm.powi."

/-- The function of the library for powers of a type. -/
def powerFunction : DataType → Except Fault String
  | .float => .ok "__nv_powif"
  | .double => .ok "__nv_powi"
  | type => .error (.powiType type.keyword)

/-- The types of the powers that instructions compute, in order. -/
def powerTypes : List DataType :=
  m.functions.flatMap fun f => f.instructions.filterMap fun i =>
    match i.action with
    | .call returnType callee _ => if isPowerName callee then some returnType else none
    | _ => none

/-- Compute powers with the library. -/
def powersFromLibrary (i : Instruction) : Except Fault Instruction :=
  match i.action with
  | .call returnType callee args =>
    if isPowerName callee then do
      return { i with action := .call returnType (← powerFunction returnType) args }
    else return i
  | _ => return i

/-- Replace the intrinsics for integer powers by functions of the library. The
    declarations of intrinsics that are no longer called go. -/
def lowerPowers : Except Fault Module := do
  let types := m.powerTypes
  let m := { m with functions := ← m.functions.mapM (·.mapInstructionsM powersFromLibrary) }
  let called := m.functions.flatMap fun f => f.instructions.filterMap (·.action.callee?)
  let stale := (m.functions.filter fun f =>
    f.isDeclaration && isPowerName f.name && !called.contains f.name).map (·.name)
  let m := { m with functions := m.functions.filter fun f => !stale.contains f.name }
  types.foldlM (fun m type => return m.declare (← powerFunction type) type [type, .i32]) m

/-! ## Lowering -/

/-- Link the library of a file into a module, and complete the module. -/
def lowerWith (file : TextFile) : Except Fault Module := do
  match loadLibrary file with
  | .error _ => return m
  | .ok library =>
    match ← m.linkInto library with
    | (.error _, m) => return m
    | (.ok (), m) => m.internalize.lowerPowers

end Module

end Offload.Device
