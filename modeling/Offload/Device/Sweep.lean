import Offload.Device.Module

/-!
# Removing what is not used

An instruction whose value alone matters is dead if no instruction uses that
value; an internal function is dead if nothing refers to it. Removing the dead
may leave more dead behind, so both removals go in rounds (`sweepInstructions`,
`sweepFunctions`) until one finds nothing. Every round but the last one takes
something away.
-/

namespace Offload.Device

namespace Function

variable (f : Function)

/-- The values that instructions use. -/
def usedValues : List String :=
  f.instructions.flatMap fun i => i.action.operands.filterMap (·.asValue?)

/-- Whether an instruction stays, given the values that are used. -/
def isNeeded (used : List String) (i : Instruction) : Bool :=
  !i.action.isDeadIfUnused || i.result.any used.contains

/-- Remove the instructions that are not needed now. -/
def sweepOnce : Function := f.filterInstructions (isNeeded f.usedValues)

/-- Remove instructions in at most `n` rounds. -/
def sweepWithin : (n : Nat) → Function → Function
  | 0, f => f
  | n + 1, f =>
    let g := f.sweepOnce
    if g.instructions.length = f.instructions.length then f else sweepWithin n g

/-- Remove all dead instructions. -/
def sweepInstructions : Function := f.sweepWithin (f.instructions.length + 1)

/-- Remove instructions in at most `n` rounds, and count them, block by block. -/
def sweepCounting : (n : Nat) → Function → Function × Nat
  | 0, f => (f, 0)
  | n + 1, f =>
    let g := f.sweepOnce
    let gone := (f.blocks.zipWith
      (fun b c => b.instructions.length - c.instructions.length) g.blocks).foldr (· + ·) 0
    if gone = 0 then (g, 0)
    else
      let (h, more) := sweepCounting n g
      (h, gone + more)

/-- Remove all dead instructions, and say how many there were. -/
def sweep : Function × Nat := f.sweepCounting (f.instructions.length + 1)

end Function

namespace Module

variable (m : Module)

/-- The functions that something refers to. A call does not count for the
    function that it stands in. -/
def referencedFunctions : List String :=
  m.functions.flatMap (fun f => f.instructions.flatMap fun i =>
      i.action.callee?.toList.filter (· ≠ f.name)
        ++ i.action.operands.filterMap fun
          | .symbol name => some name
          | _ => none)
    ++ m.nodes.nodes.flatMap (·.functions)

/-- Remove the internal functions that nothing refers to now. -/
def sweepFunctionsOnce : Module :=
  let referenced := m.referencedFunctions
  { m with
    functions := m.functions.filter fun f =>
      f.linkage ≠ .internal || f.isDeclaration || referenced.contains f.name }

/-- Remove functions in at most `n` rounds. -/
def sweepFunctionsWithin : (n : Nat) → Module → Module
  | 0, m => m
  | n + 1, m =>
    let k := m.sweepFunctionsOnce
    if k.functions.length = m.functions.length then m else sweepFunctionsWithin n k

/-- Remove all internal functions that nothing refers to. -/
def sweepFunctions : Module := m.sweepFunctionsWithin (m.functions.length + 1)

end Module

end Offload.Device
