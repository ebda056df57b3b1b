import Offload.Proofs.Device.Lowered
import Offload.Proofs.Device.Lowering
import Offload.Proofs.Kind

/-!
# What lowering an operation does

Lowering an operation either lets a literal stand for its result, or appends one instruction, or two
if a register of the device is read as a number of 64 bits. What the instruction does is said by
the kind of the operation and by the operands that stand for the values that it takes (`Performs`
if it has no value, `Computes` if it has one). So all that can come of an operation that is lowered
is one of four things (`LowersOp`), and what comes of a function is one of them after the other,
from its arguments on (`lowers_of_gives_block`).
-/

namespace Offload

/-- The operations on two numbers that give one of their type. -/
def OpKind.arithmetic : List OpKind := ["add", "sub", "mul", "div", "rem"].map (⟨"arith", ·⟩)

/-- The operations that compare two numbers. -/
def OpKind.comparisons : List OpKind :=
  ["cmp_eq", "cmp_ne", "cmp_lt", "cmp_le", "cmp_gt", "cmp_ge"].map (⟨"arith", ·⟩)

namespace Device

open Context

variable {ctx : Context} {o : OpRef} {v : ValueRef} {type : DataType} {p : Operand}

/-- The lowered type of a value, if it has one. -/
def dataType? (ctx : Context) (v : ValueRef) : Option DataType :=
  ((ctx.typeOf v).bind (lowerType? ctx)).toOption.join

theorem dataType?_eq_some :
    dataType? ctx v = some type ↔
      ∃ t, ctx.typeOf v = .ok t ∧ lowerType? ctx t = .ok (some type) := by
  rw [dataType?]
  cases htype : ctx.typeOf v with
  | error e => simp [Except.bind, Except.toOption]
  | ok t =>
    change (lowerType? ctx t).toOption.join = _ ↔ _
    cases hlower : lowerType? ctx t with
    | error e => simp [Except.toOption, hlower]
    | ok answer => simp [Except.toOption, hlower]

/-! ## Forms of operations -/

/-- The literal for a constant of a type. -/
def literal? : Attribute → DataType → Option Operand
  | .atom (.bool b), _ => some (.int (if b then 1 else 0))
  | .atom (.int bits), .i1 => some (.int (bits &&& 1).toInt64)
  | .atom (.int bits), .i32 => some (.int bits.toUInt32.toInt32.toInt64)
  | .atom (.int bits), .i64 => some (.int bits.toInt64)
  | .atom (.float x), .float => some (.float x)
  | .atom (.float x), .double => some (.float x)
  | _, _ => none

theorem isConstant_of_literal? {x : Attribute} (h : literal? x type = some p) : p.isConstant := by
  rw [literal?.eq_def] at h
  split at h <;> cases h <;> rfl

/-- The registers of the device that grid queries read. -/
def gridRegisters : List (OpKind × String) :=
  [(.threadId, "tid"), (.blockId, "ctaid"), (.blockDim, "ntid")]

/-- Operands stand for values. -/
abbrev Standing := ValueRef → Operand → Prop

section Forms

variable (ctx : Context) (R : Standing) (o : OpRef)

/-- The `n`-th operand of the operation is a value, and this stands for it. -/
structure Takes (n : Nat) (v : ValueRef) (p : Operand) : Prop where
  value : ctx.operand o n = .ok v
  stands : R v p

/-- The arguments of a call: what stands for the operands, with their types. -/
def Passes : List (DataType × Operand) → Prop :=
  List.Forall₂ (fun v arg => dataType? ctx v = some arg.1 ∧ R v arg.2) (ctx.operandsOf o)

/-- A grid query reads its register. -/
inductive Queries : Action → Prop
  | register {register : String} {d : Dimension} (hkind : (ctx.kindOf o, register) ∈ gridRegisters)
    (hdimension : ctx.dimension o = .ok d) :
    Queries (.call .i32 s!"llvm.nvvm.read.ptx.sreg.{register}.{d.name}" [])

/-- What an operation with a value computes for it. -/
inductive Computes (v : ValueRef) : Action → Prop
  | arithmetic {op : BinaryOp} {type : DataType} {lhs rhs : ValueRef} {l r : Operand}
    (hkind : ctx.kindOf o ∈ OpKind.arithmetic) (htype : dataType? ctx v = some type)
    (hop : Site.binaryOp? (ctx.kindOf o).name type.isFloat = some op)
    (hlhs : Takes ctx R o 0 lhs l) (hrhs : Takes ctx R o 1 rhs r) :
    Computes v (.binary op type l r)
  | compareInt {c : IntComparison} {type : DataType} {lhs rhs : ValueRef} {l r : Operand}
    (hkind : ctx.kindOf o ∈ OpKind.comparisons) (hlhs : Takes ctx R o 0 lhs l)
    (hrhs : Takes ctx R o 1 rhs r) (htype : dataType? ctx lhs = some type)
    (hint : type.isFloat = false)
    (hcomparison : Site.intComparison? (ctx.kindOf o).name = some c) :
    Computes v (.compareInt c type l r)
  | compareFloat {c : FloatComparison} {type : DataType} {lhs rhs : ValueRef} {l r : Operand}
    (hkind : ctx.kindOf o ∈ OpKind.comparisons) (hlhs : Takes ctx R o 0 lhs l)
    (hrhs : Takes ctx R o 1 rhs r) (htype : dataType? ctx lhs = some type)
    (hfloat : type.isFloat = true)
    (hcomparison : Site.floatComparison? (ctx.kindOf o).name = some c) :
    Computes v (.compareFloat c type l r)
  | power {type : DataType} {suffix : String} {base exponent : ValueRef} {x n : Operand}
    (hkind : ctx.kindOf o = .powi) (hbase : Takes ctx R o 0 base x)
    (hexponent : Takes ctx R o 1 exponent n) (htype : dataType? ctx base = some type)
    (hwidth : dataType? ctx exponent = some .i32)
    (hsuffix : (type, suffix) ∈ [(.float, "f32"), (.double, "f64")]) :
    Computes v (.call type s!"llvm.powi.{suffix}.i32" [(type, x), (.i32, n)])
  | load {type : DataType} {pointer : ValueRef} {p : Operand} (hkind : ctx.kindOf o = .load)
    (htype : dataType? ctx v = some type) (hpointer : Takes ctx R o 0 pointer p) :
    Computes v (.load type p)
  | alloca {t : TypeRef} {type : DataType} (hkind : ctx.kindOf o = .alloca)
    (helement : ctx.elementType o = .ok t) (htype : lowerType? ctx t = .ok (some type)) :
    Computes v (.alloca type)
  | offset {t : TypeRef} {element indexType : DataType} {base index : ValueRef} {p i : Operand}
    (hkind : ctx.kindOf o = .offset) (helement : ctx.elementType o = .ok t)
    (htype : lowerType? ctx t = .ok (some element)) (hbase : Takes ctx R o 0 base p)
    (hindex : Takes ctx R o 1 index i) (hwidth : dataType? ctx index = some indexType) :
    Computes v (.address false element p indexType i)
  | call {type : DataType} {callee : String} {args : List (DataType × Operand)}
    (hkind : ctx.kindOf o = .call) (hresults : ctx.results o = [v])
    (htype : dataType? ctx v = some type) (hcallee : ctx.callee o = .ok callee)
    (hargs : Passes ctx R o args) : Computes v (.call type callee args)
  | query {a : Action} (hquery : Queries ctx o a) (htype : dataType? ctx v = some .i32) :
    Computes v a

/-- What an operation without a value does. -/
inductive Performs : Action → Prop
  | store {type : DataType} {value pointer : ValueRef} {x p : Operand}
    (hkind : ctx.kindOf o = .store) (hvalue : Takes ctx R o 0 value x)
    (htype : dataType? ctx value = some type) (hpointer : Takes ctx R o 1 pointer p) :
    Performs (.store type x p)
  | call {callee : String} {args : List (DataType × Operand)} (hkind : ctx.kindOf o = .call)
    (hresults : ctx.results o = []) (hcallee : ctx.callee o = .ok callee)
    (hargs : Passes ctx R o args) : Performs (.call .void callee args)
  | leave (hkind : ctx.kindOf o = .funcReturn) (hoperands : ctx.operandsOf o = []) :
    Performs (.ret none)
  | answer {type : DataType} {v : ValueRef} {p : Operand} (hkind : ctx.kindOf o = .funcReturn)
    (hoperands : ctx.operandsOf o = [v]) (htype : dataType? ctx v = some type) (hp : R v p) :
    Performs (.ret (some (type, p)))
  | barrier (hkind : ctx.kindOf o = .gpuBarrier) :
    Performs (.call .void "llvm.nvvm.barrier0" [])

end Forms

section Standing

variable {R R' : Standing} {a : Action} {args : List (DataType × Operand)} {n : Nat}

theorem Takes.mono (h : Takes ctx R o n v p) (hR : ∀ v p, R v p → R' v p) : Takes ctx R' o n v p :=
  ⟨h.value, hR v p h.stands⟩

theorem Passes.mono (h : Passes ctx R o args) (hR : ∀ v p, R v p → R' v p) :
    Passes ctx R' o args :=
  List.Forall₂.imp (fun v arg h => ⟨h.1, hR v arg.2 h.2⟩) h

theorem Passes.stands (h : Passes ctx R o args) : ∀ p ∈ args.map Prod.snd, ∃ v, R v p := by
  intro p hp
  obtain ⟨arg, harg, rfl⟩ := List.mem_map.1 hp
  obtain ⟨v, -, -, hstands⟩ := Outcome.exists_of_mem_right h harg
  exact ⟨v, hstands⟩

theorem Computes.mono (h : Computes ctx R o v a) (hR : ∀ v p, R v p → R' v p) :
    Computes ctx R' o v a := by
  cases h with
  | arithmetic hkind htype hop hlhs hrhs =>
    exact .arithmetic hkind htype hop (hlhs.mono hR) (hrhs.mono hR)
  | compareInt hkind hlhs hrhs htype hint hc =>
    exact .compareInt hkind (hlhs.mono hR) (hrhs.mono hR) htype hint hc
  | compareFloat hkind hlhs hrhs htype hfloat hc =>
    exact .compareFloat hkind (hlhs.mono hR) (hrhs.mono hR) htype hfloat hc
  | power hkind hbase hexponent htype hwidth hsuffix =>
    exact .power hkind (hbase.mono hR) (hexponent.mono hR) htype hwidth hsuffix
  | load hkind htype hpointer => exact .load hkind htype (hpointer.mono hR)
  | alloca hkind helement htype => exact .alloca hkind helement htype
  | offset hkind helement htype hbase hindex hwidth =>
    exact .offset hkind helement htype (hbase.mono hR) (hindex.mono hR) hwidth
  | call hkind hresults htype hcallee hargs =>
    exact .call hkind hresults htype hcallee (hargs.mono hR)
  | query hquery htype => exact .query hquery htype

theorem Performs.mono (h : Performs ctx R o a) (hR : ∀ v p, R v p → R' v p) :
    Performs ctx R' o a := by
  cases h with
  | store hkind hvalue htype hpointer =>
    exact .store hkind (hvalue.mono hR) htype (hpointer.mono hR)
  | call hkind hresults hcallee hargs => exact .call hkind hresults hcallee (hargs.mono hR)
  | leave hkind hoperands => exact .leave hkind hoperands
  | answer hkind hoperands htype hp => exact .answer hkind hoperands htype (hR _ _ hp)
  | barrier hkind => exact .barrier hkind

theorem Queries.operands (h : Queries ctx o a) : a.operands = [] := by
  cases h
  rfl

/-- All operands of the instruction stand for values. -/
theorem Computes.stands (h : Computes ctx R o v a) : ∀ p ∈ a.operands, ∃ x, R x p := by
  cases h with
  | arithmetic _ _ _ hl hr | compareInt _ hl hr | compareFloat _ hl hr | power _ hl hr
  | offset _ _ _ hl hr =>
    exact List.forall_mem_cons.2 ⟨⟨_, hl.stands⟩, List.forall_mem_singleton.2 ⟨_, hr.stands⟩⟩
  | load _ _ hp => exact List.forall_mem_singleton.2 ⟨_, hp.stands⟩
  | alloca => exact List.forall_mem_nil _
  | call _ _ _ _ hargs => exact hargs.stands
  | query hquery => exact hquery.operands ▸ List.forall_mem_nil _

theorem Performs.stands (h : Performs ctx R o a) : ∀ p ∈ a.operands, ∃ x, R x p := by
  cases h with
  | store _ hx _ hp =>
    exact List.forall_mem_cons.2 ⟨⟨_, hx.stands⟩, List.forall_mem_singleton.2 ⟨_, hp.stands⟩⟩
  | call _ _ _ hargs => exact hargs.stands
  | leave | barrier => exact List.forall_mem_nil _
  | answer _ _ _ hp => exact List.forall_mem_singleton.2 ⟨_, hp⟩

end Standing

/-! ## Steps of building -/

variable {b b' : Building} {a : Action} {name : String} {u : Unit} {n : Nat}

/-- What stands for a value so far. -/
def Building.Finds (b : Building) : Standing := fun v p => b.operands.lookup v = some p

/-- An instruction for a value, which gets the next number. -/
def Building.defining (b : Building) (v : ValueRef) (a : Action) : Building where
  operands := (v, .value (toString b.next)) :: b.operands
  next := b.next + 1
  instructions := b.instructions ++ [{ result := some (toString b.next), action := a }]
  intrinsics := b.intrinsics

namespace Builder

theorem gives_get {c : Building} : Gives get b c b' ↔ b = c ∧ b = b' := gives_pure

theorem gives_modify {f : Building → Building} : Gives (modify f) b u b' ↔ f b = b' := by
  refine (Lowered.pure_eq_ok (a := ((), f b))).trans ?_
  rw [Prod.mk.injEq]
  exact and_iff_right rfl

theorem gives_assign :
    Gives (assign v p) b u b' ↔ { b with operands := (v, p) :: b.operands } = b' := gives_modify

theorem gives_push {i : Instruction} :
    Gives (push i) b u b' ↔ { b with instructions := b.instructions ++ [i] } = b' := gives_modify

theorem gives_fresh :
    Gives fresh b name b' ↔ toString b.next = name ∧ { b with next := b.next + 1 } = b' := by
  simp only [fresh, gives_bind, gives_get, gives_modify, gives_pure]
  constructor
  · rintro ⟨_, _, ⟨rfl, rfl⟩, _, _, rfl, rfl, rfl⟩
    exact ⟨rfl, rfl⟩
  · rintro ⟨rfl, rfl⟩
    exact ⟨b, b, ⟨rfl, rfl⟩, (), _, rfl, rfl, rfl⟩

theorem gives_define : Gives (define v a) b u b' ↔ b.defining v a = b' := by
  simp only [define, gives_bind, gives_fresh, gives_assign, gives_push, and_assoc, exists_and_left,
    exists_eq_left', exists_const, Building.defining]

/-- Only the intrinsics can be more. -/
theorem gives_require {types : List DataType} (hrun : Gives (require name type types) b u b') :
    ∃ i, b' = { b with intrinsics := i } := by
  rw [← gives_modify.1 hrun]
  split
  · exact ⟨b.intrinsics, rfl⟩
  · exact ⟨_, rfl⟩

theorem Gives.ite {α : Type} {c P : Prop} [Decidable c] {x y : Builder α} {a : α}
    (h : Gives (if c then x else y) b a b') (hx : c → Gives x b a b' → P)
    (hy : ¬c → Gives y b a b' → P) : P := by
  split at h
  · exact hx ‹_› h
  · exact hy ‹_› h

/-- Steps that only read leave what is built alone. -/
theorem gives_mapM_of_reads {α β : Type} {f : α → Builder β} {P : α → β → Prop} {as : List α}
    {bs : List β} (hf : ∀ a c b', Gives (f a) b c b' → b = b' ∧ P a c)
    (hrun : Gives (as.mapM f) b bs b') : b = b' ∧ List.Forall₂ P as bs := by
  induction as generalizing bs b' with
  | nil =>
    obtain ⟨rfl, rfl⟩ := gives_pure.1 hrun
    exact ⟨rfl, .nil⟩
  | cons a as ih =>
    rw [List.mapM_cons] at hrun
    obtain ⟨c, _, hc, hrun⟩ := gives_bind.1 hrun
    obtain ⟨rfl, hP⟩ := hf a c _ hc
    obtain ⟨cs, _, hcs, hrun⟩ := gives_bind.1 hrun
    obtain ⟨rfl, hall⟩ := ih hcs
    obtain ⟨rfl, rfl⟩ := gives_pure.1 hrun
    exact ⟨rfl, .cons hP hall⟩

end Builder

open Device.Builder

/-! ## Operations -/

/-- What comes of an operation that is lowered, apart from the intrinsics that are declared. -/
inductive LowersOp (ctx : Context) (o : OpRef) (b : Building) : Building → Prop
  | assign {type : DataType} {v : ValueRef} {x : Attribute} {p : Operand}
    (hkind : ctx.kindOf o = .const) (hv : ctx.result o 0 = .ok v)
    (htype : dataType? ctx v = some type) (hconstant : ctx.constant o = .ok x)
    (hp : literal? x type = some p) : LowersOp ctx o b { b with operands := (v, p) :: b.operands }
  | perform {a : Action} {i : List Function} (ha : Performs ctx b.Finds o a) :
    LowersOp ctx o b { b with
      intrinsics := i
      instructions := b.instructions ++ [{ result := none, action := a }] }
  | define {v : ValueRef} {a : Action} {i : List Function} (hv : ctx.result o 0 = .ok v)
    (ha : Computes ctx b.Finds o v a) :
    LowersOp ctx o b ({ b with intrinsics := i }.defining v a)
  /-- What the register holds gets a number, and its extension gets one. -/
  | widen {v : ValueRef} {a : Action} {i : List Function} (hv : ctx.result o 0 = .ok v)
    (htype : dataType? ctx v = some .i64) (ha : Queries ctx o a) :
    LowersOp ctx o b (Building.defining
      { b with
        intrinsics := i
        next := b.next + 1
        instructions := b.instructions ++ [{ result := some (toString b.next), action := a }] }
      v (.convert .zext .i32 (.value (toString b.next)) .i64))

namespace Site

variable {s : Site} {α : Type}

theorem gives_operand : Gives (s.operand n) b v b' ↔ s.ctx.operand s.op n = .ok v ∧ b = b' :=
  gives_lift

theorem gives_result : Gives s.result b v b' ↔ s.ctx.result s.op 0 = .ok v ∧ b = b' := gives_lift

theorem gives_operandFor : Gives (s.operandFor v) b p b' ↔ b.Finds v p ∧ b = b' := by
  simp only [operandFor, gives_bind, gives_get, Building.Finds]
  constructor
  · rintro ⟨_, _, ⟨rfl, rfl⟩, hrun⟩
    cases hp : b.operands.lookup v with
    | none =>
      rw [hp] at hrun
      exact absurd hrun gives_throw
    | some q =>
      rw [hp] at hrun
      obtain ⟨rfl, rfl⟩ := gives_pure.1 hrun
      exact ⟨rfl, rfl⟩
  · rintro ⟨hp, rfl⟩
    refine ⟨b, b, ⟨rfl, rfl⟩, ?_⟩
    rw [hp]
    exact gives_pure.2 ⟨rfl, rfl⟩

theorem not_gives_unsupported {a : α} : ¬Gives s.unsupported b a b' := gives_throw

theorem not_gives_unsupportedType {a : α} : ¬Gives s.unsupportedType b a b' := gives_throw

theorem gives_lowerType {t : TypeRef} :
    Gives (s.lowerType t) b type b' ↔ lowerType? s.ctx t = .ok (some type) ∧ b = b' := by
  simp only [lowerType, gives_bind, gives_lift]
  constructor
  · rintro ⟨answer, _, ⟨hanswer, rfl⟩, hrun⟩
    cases answer with
    | none => exact absurd hrun not_gives_unsupportedType
    | some type' =>
      obtain ⟨rfl, rfl⟩ := gives_pure.1 hrun
      exact ⟨hanswer, rfl⟩
  · rintro ⟨hanswer, rfl⟩
    exact ⟨_, b, ⟨hanswer, rfl⟩, gives_pure.2 ⟨rfl, rfl⟩⟩

theorem gives_typeFor :
    Gives (s.typeFor v) b type b' ↔ dataType? s.ctx v = some type ∧ b = b' := by
  simp only [typeFor, gives_bind, gives_lift, gives_lowerType, dataType?_eq_some]
  constructor
  · rintro ⟨t, _, ⟨ht, rfl⟩, htype, rfl⟩
    exact ⟨⟨t, ht, htype⟩, rfl⟩
  · rintro ⟨⟨t, ht, htype⟩, rfl⟩
    exact ⟨t, b, ⟨ht, rfl⟩, htype, rfl⟩

variable (hs : s.kind = s.ctx.kindOf s.op)
include hs

theorem lowersOp_const (hkind : s.kind = .const) (hrun : Gives s.const b u b') :
    LowersOp s.ctx s.op b b' := by
  simp only [Site.const, gives_bind, gives_lift, gives_result, gives_typeFor, and_assoc,
    exists_and_left, exists_eq_left'] at hrun
  obtain ⟨v, hv, type, htype, x, hx, hrun⟩ := hrun
  have hassign {p : Operand} (hp : literal? x type = some p)
      (hrun : Gives (do let o ← pure p; Builder.assign v o) b u b') :
      LowersOp s.ctx s.op b b' := by
    rw [pure_bind] at hrun
    obtain rfl := gives_assign.1 hrun
    exact .assign (hs ▸ hkind) hv htype hx hp
  split at hrun
  -- the last row of the table is for all constants that there is no literal for
  case h_7 =>
    obtain ⟨_, _, hthrow, -⟩ := gives_bind.1 hrun
    exact absurd hthrow not_gives_unsupportedType
  all_goals exact hassign rfl hrun

theorem lowersOp_binary (hkind : s.kind ∈ OpKind.arithmetic) (hrun : Gives s.binary b u b') :
    LowersOp s.ctx s.op b b' := by
  simp only [Site.binary, gives_bind, gives_operand, gives_result, gives_typeFor, and_assoc,
    exists_and_left, exists_eq_left'] at hrun
  obtain ⟨lhs, hlhs, rhs, hrhs, v, hv, type, htype, hrun⟩ := hrun
  split at hrun
  · exact absurd hrun not_gives_unsupported
  rename_i op hop
  simp only [gives_bind, gives_operandFor, gives_define, and_assoc, exists_and_left,
    exists_eq_left'] at hrun
  obtain ⟨l, hl, r, hr, rfl⟩ := hrun
  exact .define hv (.arithmetic (hs ▸ hkind) htype (hs ▸ hop) ⟨hlhs, hl⟩ ⟨hrhs, hr⟩)

theorem lowersOp_compare (harith : s.kind.dialect = "arith") (hrun : Gives s.compare b u b') :
    LowersOp s.ctx s.op b b' := by
  simp only [Site.compare, gives_bind, gives_operand, gives_typeFor, gives_operandFor, and_assoc,
    exists_and_left, exists_eq_left'] at hrun
  obtain ⟨lhs, hlhs, rhs, hrhs, type, htype, l, hl, r, hr, hrun⟩ := hrun
  have hdefine {a : Action} (hrun : Gives (do Builder.define (← s.result) a) b u b')
      (ha : ∀ v, Computes s.ctx b.Finds s.op v a) : LowersOp s.ctx s.op b b' := by
    simp only [gives_bind, gives_result, gives_define, and_assoc, exists_and_left,
      exists_eq_left'] at hrun
    obtain ⟨v, hv, rfl⟩ := hrun
    exact .define hv (ha v)
  split at hrun
  · rename_i hfloat
    split at hrun
    · rename_i c hc
      have hkind : s.kind ∈ OpKind.comparisons := mem_kinds_of_lookup (by decide) harith hc
      exact hdefine hrun fun v =>
        .compareFloat (hs ▸ hkind) ⟨hlhs, hl⟩ ⟨hrhs, hr⟩ htype hfloat (hs ▸ hc)
    · exact absurd hrun not_gives_unsupported
  · rename_i hint
    split at hrun
    · rename_i c hc
      have hkind : s.kind ∈ OpKind.comparisons := mem_kinds_of_lookup (by decide) harith hc
      exact hdefine hrun fun v =>
        .compareInt (hs ▸ hkind) ⟨hlhs, hl⟩ ⟨hrhs, hr⟩ htype (Bool.eq_false_iff.2 hint) (hs ▸ hc)
    · exact absurd hrun not_gives_unsupported

theorem lowersOp_power (hkind : s.kind = .powi) (hrun : Gives s.power b u b') :
    LowersOp s.ctx s.op b b' := by
  simp only [Site.power, gives_bind, gives_operand, gives_typeFor, and_assoc, exists_and_left,
    exists_eq_left'] at hrun
  obtain ⟨base, hbase, type, htype, exponent, hexponent, width, hwidth, hrun⟩ := hrun
  cases type with
  | float | double =>
    -- the suffix is known, so what is left is the test of the exponent
    dsimp only at hrun
    rw [pure_bind] at hrun
    split at hrun
    · obtain ⟨_, _, hthrow, -⟩ := gives_bind.1 hrun
      exact absurd hthrow not_gives_unsupportedType
    rename_i hint
    obtain rfl := not_not.1 hint
    obtain ⟨_, _, hrequire, hrun⟩ := gives_bind.1 hrun
    obtain ⟨i, rfl⟩ := gives_require hrequire
    simp only [gives_bind, gives_operand, gives_operandFor, gives_result, gives_define, hbase,
      hexponent, Except.ok.injEq, and_assoc, exists_and_left, exists_eq_left'] at hrun
    obtain ⟨x, hx, n, hn, v, hv, rfl⟩ := hrun
    exact .define hv (.power (hs ▸ hkind) ⟨hbase, hx⟩ ⟨hexponent, hn⟩ htype hwidth (by decide))
  | _ =>
    obtain ⟨_, _, hthrow, -⟩ := gives_bind.1 hrun
    exact absurd hthrow not_gives_unsupportedType

theorem lowersOp_load (hkind : s.kind = .load) (hrun : Gives s.load b u b') :
    LowersOp s.ctx s.op b b' := by
  simp only [Site.load, gives_bind, gives_operand, gives_result, gives_typeFor, gives_operandFor,
    gives_define, and_assoc, exists_and_left, exists_eq_left'] at hrun
  obtain ⟨v, hv, type, htype, pointer, hpointer, p, hp, rfl⟩ := hrun
  exact .define hv (.load (hs ▸ hkind) htype ⟨hpointer, hp⟩)

theorem lowersOp_store (hkind : s.kind = .store) (hrun : Gives s.store b u b') :
    LowersOp s.ctx s.op b b' := by
  simp only [Site.store, Builder.perform, gives_bind, gives_operand, gives_typeFor,
    gives_operandFor, gives_push, and_assoc, exists_and_left, exists_eq_left'] at hrun
  obtain ⟨value, hvalue, type, htype, x, hx, pointer, hpointer, p, hp, rfl⟩ := hrun
  exact .perform (.store (hs ▸ hkind) ⟨hvalue, hx⟩ htype ⟨hpointer, hp⟩)

theorem lowersOp_alloca (hkind : s.kind = .alloca) (hrun : Gives s.alloca b u b') :
    LowersOp s.ctx s.op b b' := by
  simp only [Site.alloca, gives_bind, gives_lift, gives_lowerType, gives_result, gives_define,
    and_assoc, exists_and_left, exists_eq_left'] at hrun
  obtain ⟨t, ht, type, htype, v, hv, rfl⟩ := hrun
  exact .define hv (.alloca (hs ▸ hkind) ht htype)

theorem lowersOp_offset (hkind : s.kind = .offset) (hrun : Gives s.offset b u b') :
    LowersOp s.ctx s.op b b' := by
  simp only [Site.offset, gives_bind, gives_lift, gives_lowerType, gives_operand, gives_typeFor,
    gives_operandFor, gives_result, gives_define, and_assoc, exists_and_left,
    exists_eq_left'] at hrun
  obtain ⟨t, ht, element, helement, index, hindex, indexType, htype, base, hbase, p, hp, i, hi, v,
    hv, rfl⟩ := hrun
  exact .define hv (.offset (hs ▸ hkind) ht helement ⟨hbase, hp⟩ ⟨hindex, hi⟩ htype)

theorem lowersOp_call (hkind : s.kind = .call) (hrun : Gives s.call b u b') :
    LowersOp s.ctx s.op b b' := by
  simp only [Site.call, gives_bind, gives_lift, and_assoc, exists_and_left, exists_eq_left'] at hrun
  obtain ⟨row, hrow, args, _, hargs, callee, hcallee, hrun⟩ := hrun
  have hoperands : s.ctx.operandsOf s.op = row.operands := readOp_of_op hrow _ _
  have hread (v : ValueRef) (arg : DataType × Operand) (b' : Building)
      (hrun : Gives (do return (← s.typeFor v, ← s.operandFor v)) b arg b') :
      b = b' ∧ dataType? s.ctx v = some arg.1 ∧ b.Finds v arg.2 := by
    simp only [gives_bind, gives_typeFor, gives_operandFor, gives_pure, and_assoc,
      exists_and_left, exists_eq_left'] at hrun
    obtain ⟨type, htype, p, hp, rfl, rfl⟩ := hrun
    exact ⟨rfl, htype, hp⟩
  obtain ⟨rfl, hall⟩ := gives_mapM_of_reads hread hargs
  have hpasses : Passes s.ctx b.Finds s.op args := by rwa [Passes, hoperands]
  split at hrun
  · rename_i hresults
    obtain rfl := gives_push.1 hrun
    exact .perform (.call (hs ▸ hkind) hresults hcallee hpasses)
  · rename_i v hresults
    simp only [gives_bind, gives_typeFor, gives_define, and_assoc, exists_and_left,
      exists_eq_left'] at hrun
    obtain ⟨type, htype, rfl⟩ := hrun
    exact .define (result_eq_ok.2 (by rw [hresults]; rfl))
      (.call (hs ▸ hkind) hresults htype hcallee hpasses)
  · exact absurd hrun not_gives_unsupported

theorem lowersOp_return (hkind : s.kind = .funcReturn) (hrun : Gives s.funcReturn b u b') :
    LowersOp s.ctx s.op b b' := by
  simp only [Site.funcReturn, gives_bind, gives_lift, and_assoc, exists_and_left,
    exists_eq_left'] at hrun
  obtain ⟨row, hrow, hrun⟩ := hrun
  have hoperands : s.ctx.operandsOf s.op = row.operands := readOp_of_op hrow _ _
  split at hrun
  · rename_i hnone
    obtain rfl := gives_push.1 hrun
    exact .perform (.leave (hs ▸ hkind) (hoperands.trans hnone))
  · rename_i v hv
    simp only [Builder.perform, gives_bind, gives_typeFor, gives_operandFor, gives_push, and_assoc,
      exists_and_left, exists_eq_left'] at hrun
    obtain ⟨type, htype, p, hp, rfl⟩ := hrun
    exact .perform (.answer (hs ▸ hkind) (hoperands.trans hv) htype hp)
  · exact absurd hrun not_gives_unsupported

theorem lowersOp_gridQuery {register : String} (hkind : (s.kind, register) ∈ gridRegisters)
    (hrun : Gives (s.gridQuery register) b u b') : LowersOp s.ctx s.op b b' := by
  simp only [Site.gridQuery, gives_bind, gives_lift, gives_result, gives_typeFor, and_assoc,
    exists_and_left, exists_eq_left'] at hrun
  obtain ⟨d, hd, _, _, hrequire, v, hv, type, htype, hrun⟩ := hrun
  obtain ⟨i, rfl⟩ := gives_require hrequire
  have hquery := Queries.register (hs ▸ hkind) hd
  cases type with
  | i32 =>
    obtain rfl := gives_define.1 hrun
    exact .define hv (.query hquery htype)
  | i64 =>
    simp only [gives_bind, gives_fresh, gives_push, gives_define, and_assoc, exists_and_left,
      exists_eq_left', exists_const] at hrun
    obtain rfl := hrun
    exact .widen hv htype hquery
  | _ => exact absurd hrun not_gives_unsupportedType

theorem lowersOp_barrier (hkind : s.kind = .gpuBarrier) (hrun : Gives Site.barrier b u b') :
    LowersOp s.ctx s.op b b' := by
  obtain ⟨_, _, hrequire, hrun⟩ := gives_bind.1 hrun
  obtain ⟨i, rfl⟩ := gives_require hrequire
  obtain rfl := gives_push.1 hrun
  exact .perform (.barrier (hs ▸ hkind))

/-- An operation that is lowered is of one of the forms. -/
theorem lowersOp (hrun : Gives s.lower b u b') : LowersOp s.ctx s.op b b' := by
  obtain ⟨row, _, hrow, hrun⟩ := gives_bind.1 hrun
  obtain ⟨-, rfl⟩ := gives_lift.1 hrow
  -- the tests of the kind, in their order
  refine hrun.ite (fun _ hrun => absurd hrun not_gives_unsupported) fun _ hrun => ?_
  refine hrun.ite (fun hkind hrun => lowersOp_const hs hkind hrun) fun _ hrun => ?_
  refine hrun.ite (fun hkind hrun => lowersOp_power hs hkind hrun) fun _ hrun => ?_
  refine hrun.ite (fun hbinary hrun => ?_) fun _ hrun => ?_
  · rw [Bool.and_eq_true, decide_eq_true_eq] at hbinary
    obtain ⟨op, hop⟩ := Option.isSome_iff_exists.1 hbinary.2
    exact lowersOp_binary hs (mem_kinds_of_lookup (by decide) hbinary.1 hop) hrun
  refine hrun.ite (fun hcompare hrun => ?_) fun _ hrun => ?_
  · rw [Bool.and_eq_true, decide_eq_true_eq] at hcompare
    exact lowersOp_compare hs hcompare.1 hrun
  refine hrun.ite (fun hkind hrun => lowersOp_load hs hkind hrun) fun _ hrun => ?_
  refine hrun.ite (fun hkind hrun => lowersOp_store hs hkind hrun) fun _ hrun => ?_
  refine hrun.ite (fun hkind hrun => lowersOp_alloca hs hkind hrun) fun _ hrun => ?_
  refine hrun.ite (fun hkind hrun => lowersOp_offset hs hkind hrun) fun _ hrun => ?_
  refine hrun.ite (fun hkind hrun => lowersOp_call hs hkind hrun) fun _ hrun => ?_
  refine hrun.ite (fun hkind hrun => lowersOp_return hs hkind hrun) fun _ hrun => ?_
  have hquery {register : String} {kind : OpKind} (hkind : s.kind = kind)
      (hmem : (kind, register) ∈ gridRegisters) : (s.kind, register) ∈ gridRegisters :=
    hkind ▸ hmem
  refine hrun.ite (fun hkind hrun => lowersOp_gridQuery hs (hquery hkind (by decide)) hrun)
    fun _ hrun => ?_
  refine hrun.ite (fun hkind hrun => lowersOp_gridQuery hs (hquery hkind (by decide)) hrun)
    fun _ hrun => ?_
  refine hrun.ite (fun hkind hrun => lowersOp_gridQuery hs (hquery hkind (by decide)) hrun)
    fun _ hrun => ?_
  refine hrun.ite (fun hkind hrun => lowersOp_barrier hs hkind hrun) fun _ hrun => ?_
  exact absurd hrun not_gives_unsupported

end Site

/-! ## Blocks -/

variable {ops : List OpRef}

/-- Operations are lowered one after the other. -/
inductive LowersOps (ctx : Context) : List OpRef → Building → Building → Prop
  | nil {b : Building} : LowersOps ctx [] b b
  | cons {o : OpRef} {ops : List OpRef} {b next b' : Building} (first : LowersOp ctx o b next)
    (rest : LowersOps ctx ops next b') : LowersOps ctx (o :: ops) b b'

theorem lowersOps_of_gives
    (hrun : Gives (ops.forM fun op => do Site.lower ⟨ctx, name, op, ← ctx.kind op⟩) b u b') :
    LowersOps ctx ops b b' := by
  induction ops generalizing b with
  | nil =>
    obtain ⟨-, rfl⟩ := gives_pure.1 hrun
    exact .nil
  | cons o ops ih =>
    obtain ⟨_, next, hfirst, hrest⟩ := gives_bind.1 hrun
    obtain ⟨kind, _, hlift, hfirst⟩ := gives_bind.1 hfirst
    obtain ⟨hkind, rfl⟩ := gives_lift.1 hlift
    exact .cons (Site.lowersOp (kind_eq_ok hkind).2.symm hfirst) (ih hrest)

/-- The parameters for arguments, which have the first numbers. -/
def parametersOf (args : List (ValueRef × DataType)) : List Parameter :=
  args.zipIdx.map fun e => ⟨e.1.2, some (toString e.2)⟩

/-- What has been built after the arguments. -/
def started (args : List (ValueRef × DataType)) : Building where
  operands := (args.zipIdx.map fun e => (e.1.1, .value (toString e.2))).reverse
  next := args.length

theorem mem_operands_started {args : List (ValueRef × DataType)} {e : ValueRef × Operand} :
    e ∈ (started args).operands ↔ ∃ a ∈ args.zipIdx, (a.1.1, .value (toString a.2)) = e := by
  rw [started, List.mem_reverse, List.mem_map]

theorem gives_arguments {args : List (ValueRef × DataType)} {ps : List Parameter}
    (hrun : Gives (args.mapM fun (arg, type) => do
      let value ← Builder.fresh
      Builder.assign arg (.value value)
      return (⟨type, some value⟩ : Parameter)) b ps b') :
    ps = (args.zipIdx b.next).map (fun e => ⟨e.1.2, some (toString e.2)⟩) ∧
      b' = { b with
        operands := ((args.zipIdx b.next).map fun e => (e.1.1, .value (toString e.2))).reverse ++
          b.operands
        next := b.next + args.length } := by
  induction args generalizing b ps with
  | nil =>
    obtain ⟨rfl, rfl⟩ := gives_pure.1 hrun
    exact ⟨rfl, rfl⟩
  | cons e args ih =>
    rw [List.mapM_cons] at hrun
    obtain ⟨p, next, hfirst, hrun⟩ := gives_bind.1 hrun
    obtain ⟨ps, _, hrest, hrun⟩ := gives_bind.1 hrun
    obtain ⟨rfl, rfl⟩ := gives_pure.1 hrun
    simp only [gives_bind, gives_fresh, gives_assign, gives_pure, and_assoc, exists_and_left,
      exists_eq_left'] at hfirst
    obtain ⟨rfl, _, rfl⟩ := hfirst
    obtain ⟨rfl, rfl⟩ := ih hrest
    refine ⟨rfl, ?_⟩
    simp [List.zipIdx_cons, Nat.add_assoc, Nat.add_comm 1]

/-- A block is lowered operation by operation, after its arguments. -/
theorem lowers_of_gives_block {block : BlockRef} {types : List DataType} {ps : List Parameter}
    (hrun : Gives (lowerBlock ctx name block types) {} ps b) :
    ps = parametersOf ((ctx.args block).zip types) ∧
      LowersOps ctx (ctx.opsOf block) (started ((ctx.args block).zip types)) b := by
  obtain ⟨_, _, hargs, hrun⟩ := gives_bind.1 hrun
  obtain ⟨row, _, hlift, hrun⟩ := gives_bind.1 hrun
  obtain ⟨hrow, rfl⟩ := gives_lift.1 hlift
  obtain ⟨_, _, hops, hrun⟩ := gives_bind.1 hrun
  obtain ⟨rfl, rfl⟩ := gives_pure.1 hrun
  obtain ⟨rfl, rfl⟩ := gives_arguments hargs
  have hrows : ctx.opsOf block = row.ops := readBlock_of_block hrow _ _
  rw [hrows]
  exact ⟨rfl, lowersOps_of_gives (by simpa [started] using hops)⟩

end Device

end Offload
