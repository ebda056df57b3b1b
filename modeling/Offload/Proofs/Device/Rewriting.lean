import Mathlib.Data.List.Basic
import Offload.Device.Module

/-!
# Instructions under change

What stays the same when the operands of actions, the instructions of a function or
the functions of a module are changed one by one, or left out.

A function under other names and numbers (`Function.relocate`) refers to the same
things as before, if these have the new names and numbers.
-/

namespace Offload.Device

/-! ## Actions -/

/-- The operand with other names for functions. -/
def Operand.relocate (ρ : String → String) : Operand → Operand
  | symbol name => symbol (ρ name)
  | o => o

@[simp]
theorem Operand.relocate_id {o : Operand} : o.relocate id = o := by
  cases o <;> rfl

theorem Operand.relocate_relocate {o : Operand} {ρ ρ' : String → String} :
    (o.relocate ρ).relocate ρ' = o.relocate (ρ' ∘ ρ) := by
  cases o <;> rfl

namespace Action

variable {f g : Operand → Operand} {a b : Action}

@[simp]
theorem isTerminator_mapOperands : (a.mapOperands f).isTerminator = a.isTerminator := by
  cases a <;> rfl

@[simp]
theorem resultType_mapOperands : (a.mapOperands f).resultType = a.resultType := by
  cases a <;> rfl

theorem mapOperands_mapOperands : (a.mapOperands f).mapOperands g = a.mapOperands (g ∘ f) := by
  cases a with
  | ret value => cases value <;> rfl
  | _ => simp [mapOperands, Function.comp_def]

theorem mapOperands_congr (h : ∀ o ∈ a.operands, f o = g o) :
    a.mapOperands f = a.mapOperands g := by
  cases a with
  | call returnType callee args =>
    simp only [operands, List.forall_mem_map] at h
    simp only [mapOperands, call.injEq, true_and]
    exact List.map_congr_left fun arg harg => by rw [h arg harg]
  | ret value =>
    cases value with
    | none => rfl
    | some arg => simpa [mapOperands, operands] using h
  | _ => simp_all [mapOperands, operands]

@[simp]
theorem mapOperands_id : a.mapOperands id = a := by
  cases a <;> simp [mapOperands]

/-- An action that ends a block is never dead. -/
theorem isTerminator_eq_false (h : a.isDeadIfUnused) : a.isTerminator = false := by
  cases a <;> first | rfl | cases h

@[simp]
theorem isTerminator_mapCallee {ρ : String → String} :
    (a.mapCallee ρ).isTerminator = a.isTerminator := by
  cases a <;> rfl

@[simp]
theorem resultType_mapCallee {ρ : String → String} :
    (a.mapCallee ρ).resultType = a.resultType := by
  cases a <;> rfl

@[simp]
theorem operands_mapCallee {ρ : String → String} :
    (a.mapCallee ρ).operands = a.operands := by
  cases a <;> rfl

@[simp]
theorem mapCallee_id : a.mapCallee id = a := by
  cases a <;> rfl

theorem mapCallee_mapCallee {ρ ρ' : String → String} :
    (a.mapCallee ρ).mapCallee ρ' = a.mapCallee (ρ' ∘ ρ) := by
  cases a <;> rfl

theorem mapCallee_mapOperands {ρ : String → String} :
    (a.mapOperands f).mapCallee ρ = (a.mapCallee ρ).mapOperands f := by
  cases a <;> rfl

/-- The action with other names for the functions that it refers to. -/
def relocate (ρ : String → String) (a : Action) : Action :=
  (a.mapCallee ρ).mapOperands (·.relocate ρ)

@[simp]
theorem relocate_id : a.relocate id = a := by
  have hsame : a.mapOperands (·.relocate id) = a.mapOperands id :=
    mapOperands_congr fun o _ => Operand.relocate_id
  rw [relocate, mapCallee_id, hsame, mapOperands_id]

theorem relocate_relocate {ρ ρ' : String → String} :
    (a.relocate ρ).relocate ρ' = a.relocate (ρ' ∘ ρ) := by
  rw [relocate, relocate, relocate, mapCallee_mapOperands, mapCallee_mapCallee,
    mapOperands_mapOperands]
  exact mapOperands_congr fun o _ => Operand.relocate_relocate

@[simp]
theorem isTerminator_relocate {ρ : String → String} :
    (a.relocate ρ).isTerminator = a.isTerminator := by
  simp [relocate]

@[simp]
theorem resultType_relocate {ρ : String → String} : (a.relocate ρ).resultType = a.resultType := by
  simp [relocate]

/-- The values that an action uses have no other names. -/
@[simp]
theorem value_mem_operands_relocate {ρ : String → String} {name : String} :
    .value name ∈ (a.relocate ρ).operands ↔ .value name ∈ a.operands := by
  rw [relocate, operands_mapOperands, operands_mapCallee, List.mem_map]
  constructor
  · rintro ⟨o, ho, heq⟩
    cases o with
    | value n => rwa [← heq]
    | _ => cases heq
  · intro h
    exact ⟨_, h, rfl⟩

end Action

/-- The instruction under other names and numbers. -/
def Instruction.relocate (ρ : String → String) (δ : NodeRef → NodeRef) (i : Instruction) :
    Instruction :=
  { i with action := i.action.relocate ρ, debug := i.debug.map δ }

@[simp]
theorem Instruction.relocate_id {i : Instruction} : i.relocate id id = i := by
  simp [Instruction.relocate]

theorem Instruction.relocate_relocate {i : Instruction} {ρ ρ' : String → String}
    {δ δ' : NodeRef → NodeRef} :
    (i.relocate ρ δ).relocate ρ' δ' = i.relocate (ρ' ∘ ρ) (δ' ∘ δ) := by
  simp [Instruction.relocate, Action.relocate_relocate]

/-! ## Functions -/

namespace Function

variable {f : Function} {g : Instruction → Instruction} {keep : Instruction → Bool}

theorem mem_instructions {i : Instruction} :
    i ∈ f.instructions ↔ ∃ b ∈ f.blocks, i ∈ b.instructions := List.mem_flatMap

@[simp]
theorem instructions_mapInstructions :
    (f.mapInstructions g).instructions = f.instructions.map g := by
  simp [mapInstructions, instructions, List.flatMap_map, List.map_flatMap]

@[simp]
theorem instructions_filterInstructions :
    (f.filterInstructions keep).instructions = f.instructions.filter keep := by
  simp [filterInstructions, instructions, List.flatMap_map, List.filter_flatMap]

theorem mapInstructions_eq_self (h : ∀ i ∈ f.instructions, g i = i) : f.mapInstructions g = f := by
  have hblocks : ∀ b ∈ f.blocks, { b with instructions := b.instructions.map g } = b := by
    intro b hb
    have hmap : b.instructions.map g = b.instructions := by
      conv_rhs => rw [← List.map_id b.instructions]
      exact List.map_congr_left fun i hi => h i (mem_instructions.2 ⟨b, hb, hi⟩)
    rw [hmap]
  have hall : f.blocks.map (fun b => { b with instructions := b.instructions.map g }) = f.blocks := by
    conv_rhs => rw [← List.map_id f.blocks]
    exact List.map_congr_left hblocks
  rw [mapInstructions, hall]

/-- The function under other names and numbers. -/
def relocate (ρ : String → String) (δ : NodeRef → NodeRef) (f : Function) : Function :=
  { f.mapInstructions (·.relocate ρ δ) with name := ρ f.name, debug := f.debug.map δ }

@[simp]
theorem relocate_id : f.relocate id id = f := by
  rw [relocate, mapInstructions_eq_self fun _ _ => Instruction.relocate_id]
  simp

theorem relocate_relocate {ρ ρ' : String → String} {δ δ' : NodeRef → NodeRef} :
    (f.relocate ρ δ).relocate ρ' δ' = f.relocate (ρ' ∘ ρ) (δ' ∘ δ) := by
  have hinstructions : f.mapInstructions (fun i => (i.relocate ρ δ).relocate ρ' δ') =
      f.mapInstructions (·.relocate (ρ' ∘ ρ) (δ' ∘ δ)) := by
    simp only [Instruction.relocate_relocate]
  simp only [mapInstructions, Function.mk.injEq, true_and] at hinstructions
  simpa [relocate, mapInstructions, Function.comp_def] using hinstructions

@[simp]
theorem instructions_relocate {ρ : String → String} {δ : NodeRef → NodeRef} :
    (f.relocate ρ δ).instructions = f.instructions.map (·.relocate ρ δ) :=
  instructions_mapInstructions

end Function

/-! ## Modules -/

namespace Module

variable {m : Module}

theorem function?_mem {name : String} {f : Function} (h : m.function? name = some f) :
    f ∈ m.functions ∧ f.name = name := by
  have hname := List.find?_some h
  exact ⟨List.mem_of_find?_eq_some h, by simpa using hname⟩

theorem nodes_declare (name : String) (type : DataType) (types : List DataType) :
    (m.declare name type types).nodes = m.nodes := by
  rw [declare]
  split <;> rfl

theorem lists_declare (name : String) (type : DataType) (types : List DataType) :
    (m.declare name type types).lists = m.lists := by
  rw [declare]
  split <;> rfl

/-- A declaration comes after all other functions, if it is made at all. -/
theorem functions_declare (name : String) (type : DataType) (types : List DataType) :
    ∃ new, (m.declare name type types).functions = m.functions ++ new ∧
      ∀ f ∈ new, f = .declaration name type types := by
  rw [declare]
  split
  · exact ⟨[], (List.append_nil _).symm, List.forall_mem_nil _⟩
  · exact ⟨[.declaration name type types], rfl, List.forall_mem_singleton.2 rfl⟩

end Module

end Offload.Device
