import Offload.Dialect.Kind

/-!
# Parts of known operations

Accessors for the operands, results, regions and attributes that an operation of
a known kind has. They read by position and by key, and fault when the part is
not there; a program that passes validation has all the parts that they read.
-/

namespace Offload

/-- An axis of the grid that a kernel is launched on. -/
inductive Dimension
  | x
  | y
  | z
  deriving DecidableEq, Repr

namespace Dimension

def name : Dimension → String
  | x => "x"
  | y => "y"
  | z => "z"

def ofName? (name : String) : Option Dimension :=
  [x, y, z].find? (·.name = name)

end Dimension

/-- The key of the attribute that marks a function as a kernel. -/
def kernelKey : String := "gpu.kernel"

/-- The key of the attribute that holds the device binary of a module. -/
def binaryKey : String := "gpu.binary"

namespace Context

variable (ctx : Context)

/-! ## Parts by position -/

/-- The `n`-th operand of an operation. -/
def operand (o : OpRef) (n : Nat) : Except Fault ValueRef := do
  found (← ctx.op o).operands[n]?

/-- The type of a value. -/
def typeOf (v : ValueRef) : Except Fault TypeRef := return (← ctx.value v).type

/-- The `n`-th region of an operation. -/
def regionAt (o : OpRef) (n : Nat) : Except Fault RegionRef := do
  found (← ctx.op o).regions[n]?

/-- The first block of the `n`-th region of an operation. -/
def blockAt (o : OpRef) (n : Nat) : Except Fault BlockRef := do
  found (← ctx.entry? (← ctx.regionAt o n))

/-! ## Parts by key -/

/-- A view of the attribute of an operation under a key, if it has one. -/
def attribute? {α : Type} (o : OpRef) (key : String) (view : Attribute → Option α) :
    Except Fault (Option α) := do
  return ((← ctx.op o).attributes.get? key).bind view

/-- A view of the attribute of an operation under a key. -/
def requireAttribute {α : Type} (o : OpRef) (key : String) (view : Attribute → Option α)
    (missing : Fault) : Except Fault α := do
  match ← ctx.attribute? o key view with
  | some a => return a
  | none => throw missing

/-- The symbol that names an operation, if any. -/
def symbolName? (o : OpRef) : Except Fault (Option String) :=
  ctx.attribute? o "sym_name" Attribute.asSymbol?

/-- The constant of `arith.const`. -/
def constant (o : OpRef) : Except Fault Attribute :=
  ctx.requireAttribute o "value" some (.missingAttribute "value")

/-- The type of the elements that `mem.alloca` and `mem.offset` count in. -/
def elementType (o : OpRef) : Except Fault TypeRef :=
  ctx.requireAttribute o "elem_type" Attribute.asType? (.missingAttribute "elem_type")

/-- The axis that a grid query is about. -/
def dimension (o : OpRef) : Except Fault Dimension :=
  ctx.requireAttribute o "dimension" (fun a => a.asSymbol?.bind Dimension.ofName?)
    (.missingAttribute "dimension")

/-- The function that `func.call` calls. -/
def callee (o : OpRef) : Except Fault String :=
  ctx.requireAttribute o "callee" Attribute.asSymbol? .unnamedCallee

/-! ## Functions -/

/-- The name of `func.func`. -/
def functionName (o : OpRef) : Except Fault String :=
  ctx.requireAttribute o "sym_name" Attribute.asSymbol? .unnamedFunction

/-- The type of `func.func`. -/
def functionType (o : OpRef) : Except Fault TypeRef :=
  ctx.requireAttribute o "type" Attribute.asType? .untypedFunction

/-- Whether a function has no body. -/
def isDeclaration (o : OpRef) : Except Fault Bool := do
  return (← ctx.region (← ctx.regionAt o 0)).blocks.isEmpty

/-- Whether a function is launched on the device. -/
def isKernel (o : OpRef) : Except Fault Bool := do
  return (← ctx.op o).attributes.contains kernelKey

/-- The result type of a function type. -/
def returnType? (t : TypeRef) : Except Fault (Option TypeRef) := do
  if ← ctx.isType t "func" "fn" then return (← ctx.type t).params.head? else return none

/-- The parameter types of a function type. -/
def paramTypes (t : TypeRef) : Except Fault (List TypeRef) := do
  if ← ctx.isType t "func" "fn" then return (← ctx.type t).params.tail else return []

/-- Mark `func.func` as a kernel. -/
def markKernel (o : OpRef) : Except Fault (Except KindMismatch Context) := do
  match ← ctx.kindMismatch? o .func with
  | some m => return .error m
  | none => return .ok (ctx.setAttribute o kernelKey (.atom .unit))

/-! ## Device modules -/

/-- The name of `gpu.module`. -/
def gpuModuleName (o : OpRef) : Except Fault String :=
  ctx.requireAttribute o "sym_name" Attribute.asSymbol? .unnamedGpuModule

/-- The device binary of `gpu.module`, once it has one. -/
def binary? (o : OpRef) : Except Fault (Option (List UInt8)) :=
  ctx.attribute? o binaryKey Attribute.asBytes?

/-- Give `gpu.module` its device binary. -/
def setBinary (o : OpRef) (data : List UInt8) : Except Fault (Except KindMismatch Context) := do
  match ← ctx.kindMismatch? o .gpuModule with
  | some m => return .error m
  | none => return .ok (ctx.setAttribute o binaryKey (.atom (.bytes data)))

/-! ## Scalar types -/

/-- The width of an integer type of `core`. -/
def intWidth? (t : TypeRef) : Except Fault (Option Nat) := do
  let node ← ctx.type t
  return if node.dialect = "core" then [("i1", 1), ("i32", 32), ("i64", 64)].lookup node.name
    else none

/-- The width of a floating-point type of `core`. -/
def floatWidth? (t : TypeRef) : Except Fault (Option Nat) := do
  let node ← ctx.type t
  return if node.dialect = "core" then [("f32", 32), ("f64", 64)].lookup node.name else none

/-- A type of `core` without parameters. -/
def scalarType (name : String) : Context × TypeRef :=
  ctx.internType ⟨"core", name, [], .empty⟩

/-- The type of functions from `params` to `ret`. -/
def fnType (ret : TypeRef) (params : List TypeRef) : Context × TypeRef :=
  ctx.internType ⟨"func", "fn", ret :: params, .empty⟩

end Context

end Offload
