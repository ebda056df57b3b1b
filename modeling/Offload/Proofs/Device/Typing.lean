import Offload.Proofs.Device.CleanUp

/-!
# Types of values

An action says at which type it reads each of its operands (`Action.reads`), but nothing checks
that the value is of this type. A function is *well typed* (`Function.WellTyped`) if every value has
one type, at which it is assigned and read, and if no action is one that is written in registers
of other classes, such as a comparison of single bits (`Action.Regular`).

The passes and the cleanups put constants in the place of values and leave out instructions, so
they keep a module well typed (`Module.WellTyped.optimize`).
-/

namespace Offload.Device

/-! ## Actions -/

namespace Action

/-- The operands, each with the type that it is read at. -/
def reads : Action → List (DataType × Operand)
  | binary _ type lhs rhs | compareInt _ type lhs rhs | compareFloat _ type lhs rhs =>
    [(type, lhs), (type, rhs)]
  | negate type value => [(type, value)]
  | convert _ source value _ => [(source, value)]
  | load _ pointer => [(.ptr, pointer)]
  | store type value pointer => [(type, value), (.ptr, pointer)]
  | alloca _ | jump _ => []
  | address _ _ base indexType index => [(.ptr, base), (indexType, index)]
  | call _ _ args => args
  | ret value => value.toList
  | branch condition .. => [(.i1, condition)]

/-- What the names of the functions start with that read a register of the device. -/
def registerPrefix : String := "llvm.nvvm.read.ptx.sreg."

/-- An action is written in registers of the classes of its types. A single bit is not compared,
    passed or returned: there it is taken for a number of 32 bits. The index of an address has 32
    bits, or 64 if addresses are so `wide`: it is not cut to their width. -/
def Regular (wide : Bool) : Action → Prop
  | binary op type _ _ => type.isFloat → op.isFloat
  | compareInt _ type _ _ => type ≠ .i1 ∧ ¬type.isFloat
  | convert op source _ target =>
    (op = .sext → source = .i1 → target = .i32 ∨ target = .i64) ∧
      (op = .trunc → target = .i1 → source = .i32 ∨ source = .i64)
  | address _ _ _ indexType index => index.isConstant ∨ indexType = .i32 ∨ indexType = .i64 ∧ wide
  | call returnType callee args =>
    (registerPrefix.toList.isPrefixOf callee.toList → returnType = .i32) ∧ ∀ a ∈ args, a.1 ≠ .i1
  | ret value => ∀ v ∈ value, v.1 ≠ .i1
  | _ => True

variable {a : Action} {wide : Bool} {σ : Operand → Operand}

theorem map_snd_reads : a.reads.map Prod.snd = a.operands := by
  cases a <;> rfl

theorem mem_operands_of_reads {u : DataType × Operand} (hu : u ∈ a.reads) : u.2 ∈ a.operands :=
  map_snd_reads ▸ List.mem_map_of_mem hu

theorem reads_mapOperands : (a.mapOperands σ).reads = a.reads.map fun u => (u.1, σ u.2) := by
  cases a with
  | ret value => cases value <;> rfl
  | _ => rfl

theorem reads_inbounds : a.inbounds.reads = a.reads := by cases a <;> rfl

theorem Regular.inbounds (h : a.Regular wide) : a.inbounds.Regular wide := by cases a <;> exact h

/-- Types do not change with the operands; and a constant index is to stay one. -/
theorem Regular.mapOperands (h : a.Regular wide)
    (hσ : ∀ o ∈ a.operands, o.isConstant → (σ o).isConstant) : (a.mapOperands σ).Regular wide := by
  cases a with
  | address inbounds element base indexType index =>
    exact h.imp_left (hσ index (by simp [operands]))
  | call returnType callee args =>
    refine ⟨h.1, fun a ha => ?_⟩
    obtain ⟨b, hb, rfl⟩ := List.mem_map.1 ha
    exact h.2 b hb
  | ret value =>
    cases value with
    | none => exact h
    | some v =>
      intro w hw
      obtain rfl := Option.some.inj hw
      exact h v rfl
  | _ => exact h

end Action

/-! ## Functions -/

namespace Function

variable {f g : Function} {Γ : String → DataType} {wide : Bool} {keep : Instruction → Bool}
  {σ : Operand → Operand}

/-- Every value is assigned and read at its type. -/
structure Typed (Γ : String → DataType) (f : Function) : Prop where
  parameters : ∀ p ∈ f.parameters, ∀ name ∈ p.name, Γ name = p.type
  results : ∀ i ∈ f.instructions, ∀ name ∈ i.result, Γ name = i.action.resultType
  reads : ∀ i ∈ f.instructions, ∀ u ∈ i.action.reads, ∀ name, u.2 = .value name → Γ name = u.1

/-- Values have types, and there are instructions for all actions. -/
structure WellTyped (wide : Bool) (f : Function) : Prop where
  typed : ∃ Γ, f.Typed Γ
  regular : ∀ i ∈ f.instructions, i.action.Regular wide

/-- A reduction puts constants in the place of values. -/
theorem Reduction.value_of_map (hr : f.Reduction keep σ) {i : Instruction} (hi : i ∈ f.instructions)
    (hkeep : keep i = true) {p : Operand} (hp : p ∈ i.action.operands) {name : String}
    (hname : σ p = .value name) : p = .value name := by
  obtain ⟨hsame, -⟩ | ⟨d, -, -, _, -, -, hfold⟩ := hr.operand i hi hkeep p hp
  · exact hsame.symm.trans hname
  · exact absurd hname (Operand.ne_value_of_isConstant (Action.isConstant_of_fold? hfold))

theorem Reduction.constant_of_map (hr : f.Reduction keep σ) {i : Instruction}
    (hi : i ∈ f.instructions) (hkeep : keep i = true) {p : Operand} (hp : p ∈ i.action.operands)
    (hconstant : p.isConstant) : (σ p).isConstant := by
  obtain ⟨hsame, -⟩ | ⟨d, -, -, _, -, -, hfold⟩ := hr.operand i hi hkeep p hp
  · rwa [hsame]
  · exact Action.isConstant_of_fold? hfold

theorem WellTyped.reduces (h : f.WellTyped wide) (hr : f.Reduces g) : g.WellTyped wide := by
  obtain ⟨keep, σ, hr, rfl⟩ := hr
  obtain ⟨Γ, hΓ⟩ := h.typed
  refine ⟨⟨Γ, hΓ.parameters, fun j hj name hname => ?_, fun j hj u hu name hname => ?_⟩,
    fun j hj => ?_⟩ <;> obtain ⟨i, hi, hkeep, rfl⟩ := mem_instructions_reduce.1 hj
  · rw [Instruction.mapOperands, Action.resultType_mapOperands]
    exact hΓ.results i hi name hname
  · rw [Instruction.mapOperands, Action.reads_mapOperands] at hu
    obtain ⟨v, hv, rfl⟩ := List.mem_map.1 hu
    exact hΓ.reads i hi v hv name
      (hr.value_of_map hi hkeep (Action.mem_operands_of_reads hv) hname)
  · exact (h.regular i hi).mapOperands fun o ho => hr.constant_of_map hi hkeep ho

theorem WellTyped.chain (h : f.WellTyped wide) (hr : Relation.ReflTransGen Reduces f g) :
    g.WellTyped wide := by
  induction hr with
  | refl => exact h
  | tail _ hstep ih => exact ih.reduces hstep

theorem WellTyped.cleaned (h : f.WellTyped wide) : f.cleaned.WellTyped wide := by
  obtain ⟨Γ, hΓ⟩ := h.typed
  refine ⟨⟨Γ, hΓ.parameters, ?_, ?_⟩, ?_⟩ <;> rw [instructions_cleaned, List.forall_mem_map] <;>
    intro i hi <;> replace hi := (List.mem_filter.1 hi).1
  · rw [Instruction.cleaned, Action.resultType_inbounds]
    exact hΓ.results i hi
  · rw [Instruction.cleaned, Action.reads_inbounds]
    exact hΓ.reads i hi
  · exact (h.regular i hi).inbounds

end Function

/-! ## Modules -/

namespace Module

variable {m m' : Module} {wide : Bool}

/-- All functions with a body are well typed. -/
def WellTyped (wide : Bool) (m : Module) : Prop :=
  ∀ f ∈ m.functions, f.isDeclaration = false → f.WellTyped wide

namespace WellTyped

theorem mapFunctions (h : m.WellTyped wide) {φ : Function → Function}
    (hφ : ∀ f ∈ m.functions, Relation.ReflTransGen Function.Reduces f (φ f)) :
    (m.mapFunctions φ).WellTyped wide := by
  intro g hg hbody
  obtain ⟨f, hf, rfl⟩ := List.mem_map.1 hg
  have hshrunk := Function.shrunk_of_chain (hφ f hf)
  exact (h f hf (hshrunk.isDeclaration ▸ hbody)).chain (hφ f hf)

theorem passes (h : m.WellTyped wide) (hwell : m.WellFormed) (level : Nat) (small : Bool) :
    (m.passes level small).WellTyped wide := by
  refine passes_induction h ?_ (fun k hk => ?_) fun k hk f hf => hk f (List.mem_filter.1 hf).1
  · exact h.mapFunctions fun f hf => hwell.foldConstants_chain hf
  · exact hk.mapFunctions fun f _ => f.sweepInstructions_chain

theorem cleanUp (h : m.WellTyped wide) : m.cleanUp.WellTyped wide := by
  intro g hg hbody
  obtain ⟨f, hf, -, rfl⟩ := mem_functions_cleanUp.1 hg
  exact (h f hf (Function.isDeclaration_cleaned ▸ hbody)).cleaned

/-- Optimization keeps a module well typed. -/
theorem optimize (h : m.WellTyped wide) {level : Int} (hrun : m.optimize level = (.ok (), m')) :
    m'.WellTyped wide := by
  obtain ⟨hwell, rfl⟩ := optimize_eq_ok hrun
  exact (h.passes hwell _ _).cleanUp

end WellTyped

end Module

end Offload.Device
