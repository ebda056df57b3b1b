import Offload.Parallel.Interchange
import Offload.Parallel.Merge
import Offload.Validity

/-!
# Optimizing parallel regions

The optimization of parallel regions merges them where they follow each other
and moves them out of the loops and conditionals that hold nothing else, so that
one team of workers is launched where several used to be. The program is checked
afterwards: it is a fault if it is not valid then.
-/

namespace Offload.Parallel

/-- The patterns for parallel regions. -/
def patterns : List Pattern := [merge, leaveLoop, leaveConditional]

/-- Optimize the parallel regions nested in a root. -/
def optimize (ctx : Context) (root : OpRef) (maxPasses : Nat := 47) :
    Except Fault (Context × GreedyResult) := do
  let (ctx, result) ← { patterns, maxPasses : Greedy }.run ctx root
  let findings ← ctx.findings root
  if findings.isEmpty then return (ctx, result)
  else throw (.invalidAfter "omp_opt" findings.text)

end Offload.Parallel
