import Offload.Device.Instruction
import Offload.Fault
import Offload.Number.Digits
import Offload.SortedMap

/-!
# Metadata

A module of device code carries *nodes*, numbered data about its functions and
instructions. Nodes refer to each other by number, and cycles are allowed. A
`NodeTable` holds the nodes in the order of their numbers, each number once: it is
the sorted map from the numbers to the nodes.

Named lists of nodes are the entrances: what they do not reach, and no function
or instruction refers to, means nothing.
-/

namespace Offload.Device

/-- The number of a node, written `!7`. -/
structure NodeRef where
  number : UInt32
  deriving DecidableEq, Hashable, Repr, Inhabited

namespace NodeRef

instance : LE NodeRef := ⟨fun r s => r.number ≤ s.number⟩

instance : LT NodeRef := ⟨fun r s => r.number < s.number⟩

instance : DecidableLT NodeRef := fun r s => inferInstanceAs (Decidable (r.number < s.number))

/-- References are in the order of their numbers. -/
instance : Std.IsLinearOrder NodeRef where
  le_refl r := UInt32.le_refl r.number
  le_trans _ _ _ := UInt32.le_trans
  le_antisymm _ _ hrs hsr := congrArg mk (UInt32.le_antisymm hrs hsr)
  le_total r s := UInt32.le_total r.number s.number

instance : Std.LawfulOrderLT NodeRef where
  lt_iff r s := Std.LawfulOrderLT.lt_iff r.number s.number

/-- The text of a reference. -/
def text (r : NodeRef) : String := s!"!{r.number.toNat}"

instance : ToString NodeRef := ⟨text⟩

/-- A reference from its text: an exclamation mark and a number. -/
def ofText? (text : String) : Option NodeRef :=
  match text.toList with
  | '!' :: digits =>
    if digits.isEmpty || !digits.all Char.isDigit then none
    else
      let n := digitsValue digits
      if n < UInt32.size then some ⟨n.toUInt32⟩ else none
  | _ => none

/-- The reference `by` numbers further on. -/
def shift (amount : UInt32) (r : NodeRef) : Except Fault NodeRef :=
  if r.number.toNat + amount.toNat < UInt32.size then .ok ⟨r.number + amount⟩ else .error .overflow

end NodeRef

/-- A part of a tuple. -/
inductive NodeOperand
  | null
  | text (s : String)
  | int (type : DataType) (n : Int64)
  | function (name : String)
  | node (r : NodeRef)
  deriving DecidableEq, Repr, Inhabited

namespace NodeOperand

/-- The node that a part refers to. -/
def asNode? : NodeOperand → Option NodeRef
  | node r => some r
  | _ => none

/-- The function that a part refers to. -/
def asFunction? : NodeOperand → Option String
  | function name => some name
  | _ => none

/-- The part with another name for its function. -/
def mapFunction (f : String → String) : NodeOperand → NodeOperand
  | function name => function (f name)
  | o => o

end NodeOperand

/-- The content of a node. The fields of a record are kept as they are
    written. -/
inductive Node
  | tuple (parts : List NodeOperand)
  | record (name : String) (fields : List (String × String))
  deriving DecidableEq, Repr, Inhabited

namespace Node

/-- The nodes that a node refers to, in order. -/
def references : Node → List NodeRef
  | tuple parts => parts.filterMap (·.asNode?)
  | record _ fields => fields.filterMap fun (_, value) => NodeRef.ofText? value

/-- The functions that a node refers to, in order. -/
def functions : Node → List String
  | tuple parts => parts.filterMap (·.asFunction?)
  | record .. => []

/-- Put other references in the place of those of a node. -/
def mapReferences (f : NodeRef → Except Fault NodeRef) : Node → Except Fault Node
  | tuple parts => tuple <$> parts.mapM fun
    | .node r => return .node (← f r)
    | part => return part
  | record name fields => record name <$> fields.mapM fun (key, value) => do
    match NodeRef.ofText? value with
    | some r => return (key, (← f r).text)
    | none => return (key, value)

/-- Put other names in the place of the functions of a node. -/
def mapFunctions (f : String → String) : Node → Node
  | tuple parts => tuple (parts.map (·.mapFunction f))
  | record name fields => record name fields

end Node

/-- A node of a module. -/
structure NodeDef where
  distinct : Bool
  node : Node
  deriving DecidableEq, Repr, Inhabited

/-- A named list of nodes. -/
structure NodeList where
  name : String
  nodes : List NodeRef
  deriving DecidableEq, Repr, Inhabited

/-- Nodes by number, in the order of their numbers. -/
structure NodeTable extends SortedMap NodeRef NodeDef
  deriving DecidableEq, Repr, Inhabited

namespace NodeTable

def empty : NodeTable := ⟨.empty⟩

instance : EmptyCollection NodeTable := ⟨empty⟩

/-- The table of a list of nodes with their numbers. -/
def ofList (entries : List (NodeRef × NodeDef)) : NodeTable := ⟨.ofList entries⟩

/-- Put a node under a number, in the place of an earlier one. -/
def set (t : NodeTable) (r : NodeRef) (d : NodeDef) : NodeTable := ⟨t.toSortedMap.set r d⟩

/-- Put the nodes of another table under their numbers. -/
def append (t u : NodeTable) : NodeTable := ⟨t.toSortedMap.append u.toSortedMap⟩

/-- The nodes without their numbers. -/
def nodes (t : NodeTable) : List Node := t.entries.map (·.2.node)

/-- The first number after all those in the table. -/
def next (t : NodeTable) : Except Fault NodeRef :=
  match t.entries.getLast? with
  | none => .ok ⟨0⟩
  | some (r, _) => r.shift 1

/-- Change the contents of the nodes. -/
def mapNodes (t : NodeTable) (f : Node → Node) : NodeTable :=
  ⟨t.mapValues fun d => { d with node := f d.node }⟩

/-- The nodes whose numbers meet a condition. -/
def restrict (t : NodeTable) (keep : NodeRef → Bool) : NodeTable := ⟨t.toSortedMap.restrict keep⟩

end NodeTable

end Offload.Device
