import Offload.Cubin.Serialize
import Offload.Parallel.Optimize
import Offload.Source.Build
import Offload.Source.Quote

/-!
# Compilation

A text is read, and checked; then the stages that the user asks for run on the
program: the optimization of parallel regions, after which the program is
checked again, and the serialization of device modules.
-/

namespace Offload

/-- The stages to run. -/
structure Stages where
  /-- Optimize parallel regions in at most so many passes. -/
  optimize : Option Nat := some 47
  /-- Serialize device modules. -/
  serialize : Option Cubin.Options := none

/-- A stage after which a program is checked. -/
inductive Stage
  | parse
  | optimize
  deriving DecidableEq, Repr

def Stage.name : Stage → String
  | parse => "parse"
  | optimize => "omp_opt"

/-- Why a text cannot be compiled. -/
inductive CompileError
  | malformed (e : ReadError)
  | invalid (stage : Stage) (findings : Findings)
  | serialization (failure : Cubin.Failure)

/-- The words for an error. -/
def CompileError.message : CompileError → String
  | malformed e => e.text
  | invalid stage findings => s!"IR is malformed after {stage.name}:\n{findings.text}"
  | serialization failure => failure.cause.message

/-- A compiled program. -/
structure Compilation where
  context : Context
  root : OpRef
  /-- What came of the optimization, if it ran. -/
  optimized : Option GreedyResult
  /-- The number of device modules that were serialized. -/
  serialized : Nat

/-- Stop unless a program is valid. -/
def check (stage : Stage) (ctx : Context) (root : OpRef) :
    ExceptT CompileError Cubin.Printing Unit := do
  let findings ← ctx.findings root
  if !findings.isEmpty then throw (.invalid stage findings)

/-- Compile the text of a file. -/
def compile [Ptx.TripleLibrary] (host : Cubin.Host) (stages : Stages) (path text : String) :
    ExceptT CompileError Cubin.Printing Compilation := do
  match Context.empty.read path text with
  | (.error e, _) => throw (.malformed e)
  | (.ok root, ctx) =>
    check .parse ctx root
    let (ctx, optimized) ← match stages.optimize with
      | none => pure (ctx, none)
      | some maxPasses =>
        let (ctx, result) ← Parallel.optimize ctx root maxPasses
        check .optimize ctx root
        pure (ctx, some result)
    match stages.serialize with
    | none => return ⟨ctx, root, optimized, 0⟩
    | some o =>
      match ← Cubin.serialize .standard host o ctx root with
      | (.error failure, _) => throw (.serialization failure)
      | (.ok serialized, ctx) => return ⟨ctx, root, optimized, serialized⟩

end Offload
