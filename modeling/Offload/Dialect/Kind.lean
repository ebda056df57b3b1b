import Offload.Ir.Context

/-!
# The kinds of operations

The operations that the library knows, by dialect: modules (`core`), functions
(`func`), scalar arithmetic (`arith`), memory (`mem`), structured control flow
(`scf`), parallel regions (`omp`) and device code (`gpu`). Operations of any
other kind may stand in a program as well; nothing is known of them.

For some kinds the library knows *traits*: whether the operation ends a block,
and what it may do to memory.
-/

namespace Offload

namespace OpKind

def coreModule : OpKind := ⟨"core", "module"⟩
def func : OpKind := ⟨"func", "func"⟩
def call : OpKind := ⟨"func", "call"⟩
def funcReturn : OpKind := ⟨"func", "return"⟩
def const : OpKind := ⟨"arith", "const"⟩
def powi : OpKind := ⟨"arith", "powi"⟩
def alloca : OpKind := ⟨"mem", "alloca"⟩
def load : OpKind := ⟨"mem", "load"⟩
def store : OpKind := ⟨"mem", "store"⟩
def offset : OpKind := ⟨"mem", "offset"⟩
def loop : OpKind := ⟨"scf", "for"⟩
def conditional : OpKind := ⟨"scf", "if"⟩
def yield : OpKind := ⟨"scf", "yield"⟩
def parallel : OpKind := ⟨"omp", "parallel"⟩
def barrier : OpKind := ⟨"omp", "barrier"⟩
def terminator : OpKind := ⟨"omp", "terminator"⟩
def gpuModule : OpKind := ⟨"gpu", "module"⟩
def threadId : OpKind := ⟨"gpu", "thread_id"⟩
def blockId : OpKind := ⟨"gpu", "block_id"⟩
def blockDim : OpKind := ⟨"gpu", "block_dim"⟩
def gpuBarrier : OpKind := ⟨"gpu", "barrier"⟩

/-- The operations on two scalars. -/
def binary : List OpKind :=
  ["add", "sub", "mul", "div", "rem", "cmp_eq", "cmp_ne", "cmp_lt", "cmp_le", "cmp_gt", "cmp_ge",
    "powi"].map (⟨"arith", ·⟩)

end OpKind

/-- What an operation may do to memory. -/
inductive MemoryEffect
  | read
  | write
  | allocate
  | free
  deriving DecidableEq, Repr

/-- What is known of all operations of a kind. -/
structure Traits where
  /-- The operation ends a block. -/
  isTerminator : Bool := false
  /-- The operation does what the operations nested in it do. -/
  isRecursive : Bool := false
  /-- What the operation does to memory by itself, if that is known. -/
  effects : Option (List MemoryEffect) := none
  deriving DecidableEq, Repr

namespace Traits

/-- Nothing is known. -/
def unknown : Traits := {}

/-- No effect on memory. -/
def pure : Traits := { effects := some [] }

/-- The end of a block, without an effect. -/
def terminator : Traits := { isTerminator := true, effects := some [] }

/-- The effects of what is nested inside. -/
def recursive : Traits := { isRecursive := true }

/-- The given effects. -/
def does (effects : List MemoryEffect) : Traits := { effects := some effects }

end Traits

namespace OpKind

/-- The kinds with traits. -/
def registry : List (OpKind × Traits) :=
  (binary.map fun kind => (kind, Traits.pure)) ++ [
    (const, .pure),
    (alloca, .does [.allocate]),
    (load, .does [.read]),
    (store, .does [.write]),
    (offset, .pure),
    (loop, .recursive),
    (conditional, .recursive),
    (yield, .terminator),
    (parallel, .recursive),
    (barrier, .unknown),
    (terminator, .terminator),
    (funcReturn, .terminator),
    (threadId, .pure),
    (blockId, .pure),
    (blockDim, .pure),
    (gpuBarrier, .unknown)]

/-- The traits of a kind, if it has any. -/
def traits? (kind : OpKind) : Option Traits := registry.lookup kind

/-- Whether operations of a kind end a block. -/
def isTerminator (kind : OpKind) : Bool := kind.traits?.any (·.isTerminator)

/-- Whether operations of a kind do what is nested in them. -/
def isRecursive (kind : OpKind) : Bool := kind.traits?.any (·.isRecursive)

/-- The effects that operations of a kind are known to have. -/
def effects? (kind : OpKind) : Option (List MemoryEffect) := kind.traits?.bind (·.effects)

end OpKind

/-- An operation is of another kind than it should be. -/
structure KindMismatch where
  expected : OpKind
  actual : OpKind
  deriving DecidableEq, Repr

/-- The words for a mismatch. -/
def KindMismatch.message (m : KindMismatch) : String :=
  s!"expected operation {m.expected}, found {m.actual}"

namespace Context

/-- The kind of an operation. -/
def kind (ctx : Context) (o : OpRef) : Except Fault OpKind := return (← ctx.op o).kind

/-- Whether an operation is of a kind. -/
def isKind (ctx : Context) (o : OpRef) (kind : OpKind) : Except Fault Bool :=
  return (← ctx.kind o) = kind

/-- How the kind of an operation differs from what it should be, if it does. -/
def kindMismatch? (ctx : Context) (o : OpRef) (expected : OpKind) :
    Except Fault (Option KindMismatch) := do
  let actual ← ctx.kind o
  return if actual = expected then none else some ⟨expected, actual⟩

end Context

end Offload
