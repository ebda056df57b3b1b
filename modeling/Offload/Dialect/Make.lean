import Offload.Dialect.Access

/-!
# Making known operations

Blueprints for the operations of the known kinds, from the parts that their
accessors read.
-/

namespace Offload.Blueprint

variable (location : Location)

/-- An operation without any parts. -/
def bare (kind : OpKind) : Blueprint := ⟨location, kind, [], [], .empty, []⟩

/-- An operation with a symbol for its name and one region. -/
def named (kind : OpKind) (name : String) (body : RegionRef) : Blueprint :=
  { bare location kind with
    attributes := Attributes.empty.set "sym_name" (.atom (.symbol name))
    regions := [body] }

def coreModule (name : String) (body : RegionRef) : Blueprint :=
  named location .coreModule name body

def gpuModule (name : String) (body : RegionRef) : Blueprint :=
  named location .gpuModule name body

def func (name : String) (type : TypeRef) (body : RegionRef) : Blueprint :=
  let blueprint := named location .func name body
  { blueprint with attributes := blueprint.attributes.set "type" (.atom (.type type)) }

def call (args : List ValueRef) (resultTypes : List TypeRef) (callee : String) : Blueprint :=
  { bare location .call with
    operands := args
    resultTypes
    attributes := Attributes.empty.set "callee" (.atom (.symbol callee)) }

/-- The end of a block that hands out values. -/
def handing (kind : OpKind) (values : List ValueRef) : Blueprint :=
  { bare location kind with operands := values }

def const (type : TypeRef) (value : Attribute) : Blueprint :=
  { bare location .const with
    resultTypes := [type]
    attributes := Attributes.empty.set "value" value }

/-- An operation on two scalars. -/
def binary (kind : OpKind) (lhs rhs : ValueRef) (type : TypeRef) : Blueprint :=
  { bare location kind with operands := [lhs, rhs], resultTypes := [type] }

def alloca (element pointer : TypeRef) : Blueprint :=
  { bare location .alloca with
    resultTypes := [pointer]
    attributes := Attributes.empty.set "elem_type" (.atom (.type element)) }

def load (pointer : ValueRef) (type : TypeRef) : Blueprint :=
  { bare location .load with operands := [pointer], resultTypes := [type] }

def store (value pointer : ValueRef) : Blueprint :=
  { bare location .store with operands := [value, pointer] }

def offset (base index : ValueRef) (element pointer : TypeRef) : Blueprint :=
  { bare location .offset with
    operands := [base, index]
    resultTypes := [pointer]
    attributes := Attributes.empty.set "elem_type" (.atom (.type element)) }

/-- A loop. Its results have the types of the values that it carries. -/
def loop (ctx : Context) (lower upper step : ValueRef) (init : List ValueRef)
    (body : RegionRef) : Except Fault Blueprint := do
  return { bare location .loop with
    operands := lower :: upper :: step :: init
    resultTypes := ← init.mapM ctx.typeOf
    regions := [body] }

def conditional (condition : ValueRef) (resultTypes : List TypeRef)
    (thenRegion elseRegion : RegionRef) : Blueprint :=
  { bare location .conditional with
    operands := [condition]
    resultTypes
    regions := [thenRegion, elseRegion] }

def parallel (body : RegionRef) : Blueprint :=
  { bare location .parallel with regions := [body] }

/-- A query of the grid. -/
def gridQuery (kind : OpKind) (dimension : Dimension) (type : TypeRef) : Blueprint :=
  { bare location kind with
    resultTypes := [type]
    attributes := Attributes.empty.set "dimension" (.atom (.symbol dimension.name)) }

/-- An operation of any kind from lists of its parts, which a known kind takes from
    the front: element types before result types, and the name and the value
    where its accessors find them. There is none if the name should be an axis
    of the grid but is not. -/
def ofParts (ctx : Context) (kind : OpKind) (name : String) (value : Attribute)
    (attributes : Attributes) (operands : List ValueRef) (types : List TypeRef)
    (regions : List RegionRef) : Except Fault (Option Blueprint) := do
  let operand (n : Nat) : Except Fault ValueRef := found operands[n]?
  let type (n : Nat) : Except Fault TypeRef := found types[n]?
  let region (n : Nat) : Except Fault RegionRef := found regions[n]?
  if kind = .coreModule then return some (coreModule location name (← region 0))
  else if kind = .gpuModule then return some (gpuModule location name (← region 0))
  else if kind = .func then return some (func location name (← type 0) (← region 0))
  else if kind = .call then return some (call location operands types name)
  else if [OpKind.funcReturn, .yield].contains kind then
    return some (handing location kind operands)
  else if kind = .const then return some (const location (← type 0) value)
  else if OpKind.binary.contains kind then
    return some (binary location kind (← operand 0) (← operand 1) (← type 0))
  else if kind = .alloca then return some (alloca location (← type 0) (← type 1))
  else if kind = .load then return some (load location (← operand 0) (← type 0))
  else if kind = .store then return some (store location (← operand 0) (← operand 1))
  else if kind = .offset then
    return some (offset location (← operand 0) (← operand 1) (← type 0) (← type 1))
  else if kind = .loop then
    some <$> loop location ctx (← operand 0) (← operand 1) (← operand 2) (operands.drop 3)
      (← region 0)
  else if kind = .conditional then
    return some (conditional location (← operand 0) types (← region 0) (← region 1))
  else if kind = .parallel then return some (parallel location (← region 0))
  else if [OpKind.barrier, .terminator, .gpuBarrier].contains kind then
    return some (bare location kind)
  else if [OpKind.threadId, .blockId, .blockDim].contains kind then
    match Dimension.ofName? name with
    | some dimension => return some (gridQuery location kind dimension (← type 0))
    | none => return none
  else return some ⟨location, kind, operands, types, attributes, regions⟩

end Offload.Blueprint
