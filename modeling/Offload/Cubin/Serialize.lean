import Offload.Cubin.Host
import Offload.Device.Library
import Offload.Device.Lowering
import Offload.Device.Optimize
import Offload.Device.Printer
import Offload.Ptx.Emit

/-!
# Serialization of device modules

Every `gpu.module` at or under a root is turned into a binary for the device,
which it carries as an attribute from then on: its functions are lowered, linked
with the device library, optimized, written in assembly and assembled.

The modules are taken in the order of the text. The first that fails stops the
serialization: it gets no binary, and the modules before it keep theirs.

The steps that produce device code and assembly are parameters (`Tools`), and so
is the host. What is printed on the way is collected.
-/

namespace Offload.Cubin

/-- Why a module cannot be serialized. -/
inductive Cause
  | lowering (module : String)
  | optimization (e : Device.OptimizeError)
  | emission (message : String)
  | scratch (reason : String)
  | assemblerStart (reason : String)
  | output (e : FileError)
  | emptyOutput
  deriving DecidableEq, Repr

/-- The words for a cause. -/
def Cause.message : Cause → String
  | lowering module => s!"Could not translate module to LLVM IR: {module}"
  | optimization e => e.message
  | emission message => s!"Could not emit target assembly: {message}"
  | scratch reason => s!"Failed to create temp file: {reason}"
  | assemblerStart reason => s!"Failed to run assembler: {reason}"
  | output e => s!"Failed to read assembler output: {e.message}"
  | emptyOutput => "Assembler produced no output"

/-- Why a module cannot be serialized, and where it stands in the program. -/
structure Failure where
  cause : Cause
  location : Location
  deriving DecidableEq, Repr

/-- The steps that depend on the kind of device. -/
structure Tools where
  /-- The device code of a module, under a name, if it has any. -/
  lower : Context → OpRef → String → Except Fault (Option Device.Module)
  /-- The assembly of device code, or why there is none. -/
  emit : Device.Module → Ptx.Target → Except String String

/-- The tools of the library. -/
def Tools.standard [Ptx.TripleLibrary] : Tools where
  lower ctx op name := return ((← (Device.lowerModule ctx op name).run).toOption)
  emit m target := ((Ptx.emit target m).map (·.text)).mapError (·.message)

/-- A computation that prints. -/
abbrev Printing := StateT String (Except Fault)

/-- A computation that prints, and can fail. -/
abbrev Session := ExceptT Cause Printing

/-- Print a line. -/
def printLine (text : String) : Session Unit := modify (· ++ text ++ "\n")

/-- Print an intermediate result, if the user wants to see it. -/
def Options.show (o : Options) (banner name text : String) : Session Unit :=
  if o.showIntermediate then printLine (banner ++ name ++ "\n" ++ text) else pure ()

/-- The assembly of a module. -/
def assemblyOf (tools : Tools) (host : Host) (o : Options) (ctx : Context) (op : OpRef)
    (name : String) : Session String := do
  let some m ← tools.lower ctx op name | throw (.lowering name)
  let m ← { m with triple := some o.triple }.lowerWith (host.file o.libraryPath)
  o.show "Unoptimized GPU LLVM module for: " name m.text
  match m.optimize o.level with
  | (.error e, _) => throw (.optimization e)
  | (.ok (), m) =>
    o.show "Optimized GPU LLVM module for: " name m.text
    match tools.emit m o.target with
    | .error message => throw (.emission message)
    | .ok assembly => return assembly

/-- Run the assembler on an assembly text. -/
def assemble (host : Host) (o : Options) (name assembly : String) : Session (List UInt8) := do
  o.show "PTX module for: " name assembly
  match host.scratch o.scratchDirectory with
  | .error reason => throw (.scratch reason)
  | .ok () =>
    match host.assemble o (assembly ++ "\n") with
    | .notStarted reason => throw (.assemblerStart reason)
    | .ended (.error e) => throw (.output e)
    | .ended (.ok binary) => if binary.isEmpty then throw .emptyOutput else return binary

/-- The binary of a module. -/
def binaryOf (tools : Tools) (host : Host) (o : Options) (ctx : Context) (op : OpRef)
    (name : String) : Session (List UInt8) := do
  assemble host o name (← assemblyOf tools host o ctx op name)

/-- Give each of some modules its binary, up to the first that fails. -/
def serializeModules (tools : Tools) (host : Host) (o : Options) :
    List OpRef → Context → Printing (Except Failure Unit × Context)
  | [], ctx => return (.ok (), ctx)
  | op :: ops, ctx => do
    let name ← ctx.gpuModuleName op
    match ← (binaryOf tools host o ctx op name).run with
    | .error cause => return (.error ⟨cause, (← ctx.op op).location⟩, ctx)
    | .ok binary =>
      serializeModules tools host o ops (ctx.setAttribute op binaryKey (.atom (.bytes binary)))

/-- The device modules at or under a root, in the order of the text. -/
def gpuModules (ctx : Context) (root : OpRef) : Except Fault (List OpRef) := do
  (← ctx.subtree root).filterM fun op => ctx.isKind op .gpuModule

/-- Give every device module at or under a root its binary. Returns their number. -/
def serialize (tools : Tools) (host : Host) (o : Options) (ctx : Context) (root : OpRef) :
    Printing (Except Failure Nat × Context) := do
  let ops ← gpuModules ctx root
  let (outcome, ctx) ← serializeModules tools host o ops ctx
  return (outcome.map fun () => ops.length, ctx)

end Offload.Cubin
