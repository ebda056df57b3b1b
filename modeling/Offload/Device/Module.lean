import Offload.Device.Metadata

/-!
# Modules of device code

A module is a list of functions, defined or only declared, with metadata. A
function without blocks is a declaration.

The list `nvvm.annotations` says which functions are *kernels*, the entrances
from the host.
-/

namespace Offload.Device

/-- What an instruction does, the value that it assigns, and remarks on it. -/
structure Instruction where
  result : Option String
  action : Action
  /-- Whether the result may be contracted with that of another instruction. -/
  contract : Bool := false
  /-- Where the instruction comes from. -/
  debug : Option NodeRef := none
  deriving DecidableEq, Repr, Inhabited

/-- Whether other modules see a function. -/
inductive Linkage
  | external
  | internal
  deriving DecidableEq, Repr, Inhabited

def Linkage.keyword : Linkage → String
  | external => "external"
  | internal => "internal"

/-- A parameter; those of a declaration need no name. -/
structure Parameter where
  type : DataType
  name : Option String
  deriving DecidableEq, Repr, Inhabited

/-- A list of instructions that is entered at its start. -/
structure Block where
  label : String
  instructions : List Instruction
  deriving DecidableEq, Repr, Inhabited

/-- A function. -/
structure Function where
  name : String
  linkage : Linkage
  returnType : DataType
  parameters : List Parameter
  blocks : List Block
  debug : Option NodeRef := none
  deriving DecidableEq, Repr, Inhabited

namespace Function

/-- A function that is only declared. -/
def declaration (name : String) (returnType : DataType) (types : List DataType) : Function where
  name
  linkage := .external
  returnType
  parameters := types.map (⟨·, none⟩)
  blocks := []

def isDeclaration (f : Function) : Bool := f.blocks.isEmpty

def parameterTypes (f : Function) : List DataType := f.parameters.map (·.type)

/-- The instructions of all blocks, in order. -/
def instructions (f : Function) : List Instruction := f.blocks.flatMap (·.instructions)

/-- Change every instruction. -/
def mapInstructions (f : Function) (g : Instruction → Instruction) : Function :=
  { f with blocks := f.blocks.map fun b => { b with instructions := b.instructions.map g } }

/-- Change every instruction, which may fail. -/
def mapInstructionsM (f : Function) (g : Instruction → Except Fault Instruction) :
    Except Fault Function := do
  return { f with
    blocks := ← f.blocks.mapM fun b => do
      return { b with instructions := ← b.instructions.mapM g } }

/-- Change what every instruction does. -/
def mapActions (f : Function) (g : Action → Action) : Function :=
  f.mapInstructions fun i => { i with action := g i.action }

/-- Keep some of the instructions. -/
def filterInstructions (f : Function) (keep : Instruction → Bool) : Function :=
  { f with blocks := f.blocks.map fun b => { b with instructions := b.instructions.filter keep } }

/-- Whether two functions are called in the same way. -/
def sameSignature (f g : Function) : Bool :=
  f.returnType = g.returnType && f.parameterTypes = g.parameterTypes

end Function

/-- A module. -/
structure Module where
  name : String
  triple : Option String := none
  dataLayout : Option String := none
  functions : List Function := []
  lists : List NodeList := []
  nodes : NodeTable := .empty
  deriving DecidableEq, Repr, Inhabited

/-- The list that names the kernels. -/
def annotations : String := "nvvm.annotations"

namespace Module

variable (m : Module)

/-! ## Functions -/

/-- The first function with a name. -/
def function? (name : String) : Option Function := m.functions.find? (·.name = name)

/-- Declare a function, unless there is one with its name. -/
def declare (name : String) (returnType : DataType) (types : List DataType) : Module :=
  if (m.function? name).isSome then m
  else { m with functions := m.functions ++ [.declaration name returnType types] }

/-- Change every function. -/
def mapFunctions (f : Function → Function) : Module :=
  { m with functions := m.functions.map f }

/-- The operands of all instructions, in order. -/
def operands : List Operand :=
  m.functions.flatMap fun f => f.instructions.flatMap fun i => i.action.operands

/-- Whether two modules are equal, with their operands compared as numbers. -/
def same (a b : Module) : Bool :=
  blank a = blank b && (a.operands.zip b.operands).all fun (x, y) => x.same y
where
  /-- The module without its operands. -/
  blank (m : Module) : Module :=
    m.mapFunctions (·.mapActions (·.mapOperands fun _ => .int 0))

/-! ## Metadata -/

/-- The content of the node with a number. -/
def node? (r : NodeRef) : Option Node := (m.nodes.get? r).map (·.node)

/-- The first list with a name. -/
def list? (name : String) : Option NodeList := m.lists.find? (·.name = name)

/-- Append nodes to the list with a name, which is made if there is none. -/
def appendToList (name : String) (nodes : List NodeRef) : Module :=
  { m with lists := go m.lists }
where
  go : List NodeList → List NodeList
    | [] => [⟨name, nodes⟩]
    | l :: ls =>
      if l.name = name then { l with nodes := l.nodes ++ nodes } :: ls else l :: go ls

/-- Add a node under the next number. -/
def addNode (node : Node) : Except Fault (Module × NodeRef) := do
  let r ← m.nodes.next
  return ({ m with nodes := m.nodes.set r ⟨false, node⟩ }, r)

/-! ## Kernels -/

/-- The annotation that makes a function a kernel. -/
def kernelNode (function : String) : Node :=
  .tuple [.function function, .text "kernel", .int .i32 1]

/-- The function that a node of the annotations makes a kernel: its first part,
    unless its second part is a text other than `kernel`. -/
def kernel? : Node → Option String
  | .tuple (.function name :: .text kind :: _) => if kind = "kernel" then some name else none
  | .tuple (.function name :: _) => some name
  | _ => none

/-- Make a function a kernel. -/
def annotateKernel (function : String) : Except Fault Module := do
  let (m, r) ← m.addNode (kernelNode function)
  return m.appendToList annotations [r]

/-- The names of the kernels, in the order of their annotations. -/
def kernels : List String :=
  match m.list? annotations with
  | none => []
  | some l => l.nodes.filterMap fun r => (m.node? r).bind kernel?

end Module

end Offload.Device
