import Mathlib.Tactic.MkIffOfInductiveProp
import Offload.Proofs.Agreement
import Offload.Proofs.Device.Operations
import Offload.Proofs.Device.Typing
import Offload.Proofs.Text.Numeral

/-!
# Types of programs

Nothing checks that the values that an operation takes have the types that it is about. In a program
where they do (`OpTyped`), and which stays clear of what the emitter writes in registers of other
classes (`Supported`), the functions of a device module are lowered to well-typed code
(`lowerModule_wellTyped`).

Values get numbers as they are built, so the types of the values built so far are a list, which
only grows: each operation that is lowered adds the types of its values at the end, and what was
well typed before stays so (`Built`).
-/

namespace Offload

namespace Device

open Context

/-! ## Programs whose types fit -/

/-- The lowered types of the operands. -/
def operandTypes (ctx : Context) (o : OpRef) : List (Option DataType) :=
  (ctx.operandsOf o).map (dataType? ctx)

/-- The lowered types of the results. -/
def resultTypes (ctx : Context) (o : OpRef) : List (Option DataType) :=
  (ctx.results o).map (dataType? ctx)

/-- A value is that of a constant. -/
def IsConstant (ctx : Context) (v : ValueRef) : Prop :=
  ∃ o ∈ ctx.definer v, ctx.kindOf o = .const

/-- The operands and the results of an operation have the types that it is about. -/
@[mk_iff]
structure OpTyped (ctx : Context) (o : OpRef) : Prop where
  arithmetic : ctx.kindOf o ∈ OpKind.arithmetic → ∀ t ∈ operandTypes ctx o, resultTypes ctx o = [t]
  comparison : ctx.kindOf o ∈ OpKind.comparisons →
    (∀ t ∈ operandTypes ctx o, ∀ u ∈ operandTypes ctx o, t = u) ∧ resultTypes ctx o = [some .i1]
  power : ctx.kindOf o = .powi → resultTypes ctx o = (operandTypes ctx o).take 1
  load : ctx.kindOf o = .load → operandTypes ctx o = [some .ptr]
  store : ctx.kindOf o = .store → (operandTypes ctx o).tail = [some .ptr]
  alloca : ctx.kindOf o = .alloca → resultTypes ctx o = [some .ptr]
  offset : ctx.kindOf o = .offset →
    operandTypes ctx o ∈ [[some .ptr, some .i32], [some .ptr, some .i64]] ∧
      resultTypes ctx o = [some .ptr]
  /-- A register of the device is read as a number of 32 bits, also by its name. -/
  call : ctx.kindOf o = .call → ∀ name, ctx.callee o = .ok name →
    Action.registerPrefix.toList.isPrefixOf name.toList → resultTypes ctx o = [some .i32]

/-- The operation is none that the emitter writes in registers of other classes. A single bit is
    held by a predicate, but where it is compared, passed or returned it is written as a number of
    32 bits: unlike in a conversion, it is not selected to one before. An index of 64 bits that is
    no constant is added in the width of addresses, also if this is 32 bits: it is not cut. -/
@[mk_iff]
structure Supported (wide : Bool) (ctx : Context) (o : OpRef) : Prop where
  bits : ctx.kindOf o ∈ OpKind.call :: .funcReturn :: OpKind.comparisons →
    some .i1 ∉ operandTypes ctx o
  index : ctx.kindOf o = .offset → ∀ v ∈ (ctx.operandsOf o)[1]?, dataType? ctx v = some .i64 →
    wide ∨ IsConstant ctx v

/-- The arguments of a function have the types that its own type gives them. -/
def ArgumentsTyped (ctx : Context) (f : OpRef) : Prop :=
  ∀ type, ctx.functionType f = .ok type → ∀ ts, ctx.paramTypes type = .ok ts →
    ∀ r ∈ ctx.regionsOf f, ∀ b ∈ ctx.blocksOf r, ∀ e ∈ (ctx.args b).zip ts, ctx.typeOf e.1 = .ok e.2

/-- The types of a function and of the operations right in it fit. -/
@[mk_iff]
structure FunctionTyped (wide : Bool) (ctx : Context) (f : OpRef) : Prop where
  arguments : ArgumentsTyped ctx f
  operations : ∀ o ∈ ctx.childrenOf f, OpTyped ctx o ∧ Supported wide ctx o

section Decidable

variable (wide : Bool) (ctx : Context) (o : OpRef)

instance (v : ValueRef) : Decidable (IsConstant ctx v) :=
  inferInstanceAs (Decidable (∃ o ∈ ctx.definer v, ctx.kindOf o = .const))

instance : Decidable (OpTyped ctx o) := decidable_of_iff' _ (opTyped_iff ctx o)

instance : Decidable (Supported wide ctx o) := decidable_of_iff' _ (supported_iff wide ctx o)

instance : Decidable (ArgumentsTyped ctx o) :=
  inferInstanceAs (Decidable (∀ type, ctx.functionType o = .ok type → ∀ ts,
    ctx.paramTypes type = .ok ts → ∀ r ∈ ctx.regionsOf o, ∀ b ∈ ctx.blocksOf r,
      ∀ e ∈ (ctx.args b).zip ts, ctx.typeOf e.1 = .ok e.2))

instance : Decidable (FunctionTyped wide ctx o) :=
  decidable_of_iff' _ (functionTyped_iff wide ctx o)

end Decidable

variable {ctx : Context} {o : OpRef} {v : ValueRef} {type : DataType}

theorem operandTypes_getElem? {n : Nat} (h : ctx.operand o n = .ok v) :
    (operandTypes ctx o)[n]? = some (dataType? ctx v) := by
  rw [operandTypes, List.getElem?_map, operand_eq_ok h]
  rfl

theorem operandTypes_mem {n : Nat} (h : ctx.operand o n = .ok v) :
    dataType? ctx v ∈ operandTypes ctx o :=
  List.mem_of_getElem? (operandTypes_getElem? h)

theorem resultTypes_getElem? {n : Nat} (h : ctx.result o n = .ok v) :
    (resultTypes ctx o)[n]? = some (dataType? ctx v) := by
  rw [resultTypes, List.getElem?_map, result_eq_ok.1 h]
  rfl

/-- The value of an operation that has one result has the type of this. -/
theorem dataType?_result {t : Option DataType} (h : ctx.result o 0 = .ok v)
    (htypes : resultTypes ctx o = [t]) : dataType? ctx v = t := by
  have := resultTypes_getElem? h
  rw [htypes] at this
  exact (Option.some.inj this).symm

/-- What comes from an operation of another kind is no constant. -/
theorem not_isConstant (hc : ctx.Coherent) (hv : v ∈ ctx.results o)
    (hkind : ctx.kindOf o ≠ .const) : ¬IsConstant ctx v := by
  rintro ⟨p, hp, hconst⟩
  obtain rfl := Option.some.inj ((definer_of_mem_results hc hv).symm.trans hp)
  exact hkind hconst

/-! ## What is built -/

/-- A name is the number of a value of a type. -/
def Numbered (types : List DataType) (name : String) (type : DataType) : Prop :=
  ∃ n : Nat, toString n = name ∧ types[n]? = some type

/-- If an operand is a value, it is one of a type. -/
def ReadAt (types : List DataType) (type : DataType) (o : Operand) : Prop :=
  ∀ name, o = .value name → Numbered types name type

/-- An action reads values at their types, and there is an instruction for it. -/
structure Action.Typed (wide : Bool) (types : List DataType) (a : Action) : Prop where
  reads : ∀ u ∈ a.reads, ReadAt types u.1 u.2
  regular : a.Regular wide

/-- What stands for a value of the program is a value of its type, or a constant; it is a constant
    for a constant. -/
structure Stands (ctx : Context) (types : List DataType) (v : ValueRef) (o : Operand) : Prop where
  value : ∀ name, o = .value name → ∃ type, dataType? ctx v = some type ∧ Numbered types name type
  constant : IsConstant ctx v → o.isConstant

/-- What has been built is well typed, if the values have the given types. -/
structure Built (ctx : Context) (wide : Bool) (types : List DataType) (b : Building) : Prop where
  count : types.length = b.next
  operands : ∀ e ∈ b.operands, Stands ctx types e.1 e.2
  actions : ∀ i ∈ b.instructions, i.action.Typed wide types
  results : ∀ i ∈ b.instructions, ∀ name ∈ i.result, Numbered types name i.action.resultType

/-- What has been built is well typed, with the given types and more of them. -/
def Grows (ctx : Context) (wide : Bool) (types : List DataType) (b : Building) : Prop :=
  ∃ more, Built ctx wide (types ++ more) b

variable {wide : Bool} {types : List DataType} {b b' : Building} {a : Action}
  {more : List DataType} {name : String} {p : Operand}

theorem Numbered.append (h : Numbered types name type) : Numbered (types ++ more) name type := by
  obtain ⟨n, hname, hn⟩ := h
  exact ⟨n, hname, (List.getElem?_append_left (List.getElem?_eq_some_iff.1 hn).1).trans hn⟩

theorem numbered_last : Numbered (types ++ [type]) (toString types.length) type :=
  ⟨types.length, rfl, List.getElem?_concat_length⟩

theorem Action.Typed.append (h : a.Typed wide types) : a.Typed wide (types ++ more) :=
  ⟨fun u hu name hname => (h.reads u hu name hname).append, h.regular⟩

theorem Stands.append (h : Stands ctx types v p) : Stands ctx (types ++ more) v p := by
  refine ⟨fun name hname => ?_, h.constant⟩
  obtain ⟨type, htype, hnumbered⟩ := h.value name hname
  exact ⟨type, htype, hnumbered.append⟩

theorem Grows.of_append (h : Grows ctx wide (types ++ more) b) : Grows ctx wide types b := by
  obtain ⟨more', h⟩ := h
  exact ⟨more ++ more', List.append_assoc types more more' ▸ h⟩

namespace Built

variable (h : Built ctx wide types b)
include h

theorem append (type : DataType) : Built ctx wide (types ++ [type]) { b with next := b.next + 1 } :=
  ⟨by rw [List.length_append, h.count]; rfl, fun e he => (h.operands e he).append,
    fun i hi => (h.actions i hi).append, fun i hi name hname => (h.results i hi name hname).append⟩

theorem assign (hv : Stands ctx types v p) :
    Built ctx wide types { b with operands := (v, p) :: b.operands } :=
  ⟨h.count, List.forall_mem_cons.2 ⟨hv, h.operands⟩, h.actions, h.results⟩

theorem push {i : Instruction} (ha : i.action.Typed wide types)
    (hi : ∀ name ∈ i.result, Numbered types name i.action.resultType) :
    Built ctx wide types { b with instructions := b.instructions ++ [i] } :=
  ⟨h.count, h.operands, List.forall_mem_append.2 ⟨h.actions, List.forall_mem_singleton.2 ha⟩,
    List.forall_mem_append.2 ⟨h.results, List.forall_mem_singleton.2 hi⟩⟩

theorem grows : Grows ctx wide types b := ⟨[], (List.append_nil types).symm ▸ h⟩

/-- An instruction whose value gets the next number. -/
theorem number (ha : a.Typed wide types) : Built ctx wide (types ++ [a.resultType])
    { b with
      next := b.next + 1
      instructions := b.instructions ++ [{ result := some (toString b.next), action := a }] } := by
  refine (h.append a.resultType).push ha.append fun name hname => ?_
  obtain rfl := Option.some.inj hname
  exact h.count ▸ numbered_last

/-- The operand that stands for a value is read at the type of this. -/
theorem readAt (hp : b.Finds v p) (hv : dataType? ctx v = some type) : ReadAt types type p := by
  intro name hname
  obtain ⟨type', htype, hnumbered⟩ := (h.operands _ (Position.mem_of_lookup hp)).value name hname
  obtain rfl := Option.some.inj (hv.symm.trans htype)
  exact hnumbered

/-- An instruction for a value adds the type of this. -/
theorem defining (hv : ¬IsConstant ctx v) (htype : dataType? ctx v = some a.resultType)
    (ha : a.Typed wide types) : Built ctx wide (types ++ [a.resultType]) (b.defining v a) := by
  refine (h.number ha).assign ⟨fun name hname => ⟨_, htype, ?_⟩, fun hc => absurd hc hv⟩
  obtain rfl := Operand.value.inj hname
  exact h.count ▸ numbered_last

/-- Intrinsics do not matter. -/
theorem declare (i : List Function) : Built ctx wide types { b with intrinsics := i } :=
  ⟨h.count, h.operands, h.actions, h.results⟩

end Built

/-! ## Operations -/

theorem typed_two {type₁ type₂ : DataType} {p q : Operand} (hp : ReadAt types type₁ p)
    (hq : ReadAt types type₂ q) : ∀ u ∈ [(type₁, p), (type₂, q)], ReadAt types u.1 u.2 :=
  List.forall_mem_cons.2 ⟨hp, List.forall_mem_singleton.2 hq⟩

/-- Operations on floating-point numbers are given for these. -/
theorem isFloat_of_binaryOp? {name : String} {op : BinaryOp}
    (h : Site.binaryOp? name true = some op) : op.isFloat := by
  have hall : ∀ e ∈ [("add", BinaryOp.fadd), ("sub", .fsub), ("mul", .fmul), ("div", .fdiv),
      ("rem", .frem)], e.2.isFloat := by decide
  exact hall (name, op) (Position.mem_of_lookup h)

theorem Queries.kind_ne_const (h : Queries ctx o a) : ctx.kindOf o ≠ .const := by
  obtain ⟨hkind, -⟩ := h
  have hgrid : ∀ e ∈ gridRegisters, e.1 ≠ .const := by decide
  exact hgrid _ hkind

/-- A constant computes nothing. -/
theorem Computes.kind_ne_const {R : Standing} (h : Computes ctx R o v a) :
    ctx.kindOf o ≠ .const := by
  cases h with
  | arithmetic hkind | compareInt hkind | compareFloat hkind =>
    exact fun e => absurd (e ▸ hkind) (by decide)
  | query hquery => exact hquery.kind_ne_const
  | power hkind | load hkind | alloca hkind | offset hkind | call hkind =>
    rw [hkind]
    decide

/-- A register of the device is read as a number of 32 bits. -/
theorem Queries.typed (h : Queries ctx o a) : a.resultType = .i32 ∧ a.Typed wide types := by
  cases h
  exact ⟨rfl, List.forall_mem_nil _, fun _ => rfl, List.forall_mem_nil _⟩

section Typed

variable (h : Built ctx wide types b) (ho : OpTyped ctx o) (hs : Supported wide ctx o)

include ho in
/-- Both operands of an operation on two numbers have the type of its value. -/
theorem OpTyped.operand (hkind : ctx.kindOf o ∈ OpKind.arithmetic) (hv : ctx.result o 0 = .ok v)
    (htype : dataType? ctx v = some type) {n : Nat} {x : ValueRef} (hx : ctx.operand o n = .ok x) :
    dataType? ctx x = some type := by
  have hresult := ho.arithmetic hkind _ (operandTypes_mem hx)
  rw [← dataType?_result hv hresult, htype]

include h ho in
/-- The operands of a comparison are read at one type. -/
theorem OpTyped.compare (hkind : ctx.kindOf o ∈ OpKind.comparisons) {lhs rhs : ValueRef}
    {l r : Operand} (hlhs : Takes ctx b.Finds o 0 lhs l) (hrhs : Takes ctx b.Finds o 1 rhs r)
    (htype : dataType? ctx lhs = some type) :
    ∀ u ∈ [(type, l), (type, r)], ReadAt types u.1 u.2 := by
  obtain ⟨hsame, -⟩ := ho.comparison hkind
  have hrtype : dataType? ctx rhs = some type :=
    (hsame _ (operandTypes_mem hrhs.value) _ (operandTypes_mem hlhs.value)).trans htype
  exact typed_two (h.readAt hlhs.stands htype) (h.readAt hrhs.stands hrtype)

include ho in
/-- An index is a number of 32 or 64 bits, and what it is added to is an address. -/
theorem OpTyped.address (hkind : ctx.kindOf o = .offset) {base index : ValueRef}
    (hbase : ctx.operand o 0 = .ok base) (hindex : ctx.operand o 1 = .ok index) :
    dataType? ctx base = some .ptr ∧
      (dataType? ctx index = some .i32 ∨ dataType? ctx index = some .i64) := by
  have h₀ := operandTypes_getElem? hbase
  have h₁ := operandTypes_getElem? hindex
  obtain heq | heq := List.mem_pair.1 (ho.offset hkind).1 <;> rw [heq] at h₀ h₁
  · exact ⟨(Option.some.inj h₀).symm, .inl (Option.some.inj h₁).symm⟩
  · exact ⟨(Option.some.inj h₀).symm, .inr (Option.some.inj h₁).symm⟩

include h hs in
/-- The arguments of a call are read at their types, and none is a single bit. -/
theorem Supported.passes (hkind : ctx.kindOf o = .call) {args : List (DataType × Operand)}
    (hargs : Passes ctx b.Finds o args) :
    (∀ arg ∈ args, ReadAt types arg.1 arg.2) ∧ ∀ arg ∈ args, arg.1 ≠ .i1 := by
  refine ⟨fun arg harg => ?_, fun arg harg hbit => ?_⟩
  · obtain ⟨v, -, htype, hp⟩ := Outcome.exists_of_mem_right hargs harg
    exact h.readAt hp htype
  · obtain ⟨v, hv, htype, -⟩ := Outcome.exists_of_mem_right hargs harg
    refine hs.bits (hkind ▸ List.mem_cons_self) ?_
    exact hbit ▸ htype ▸ List.mem_map_of_mem hv

include h ho hs

/-- What is computed is well typed, and of the type of the value. -/
theorem Computes.typed (ha : Computes ctx b.Finds o v a) (hv : ctx.result o 0 = .ok v) :
    a.Typed wide types ∧ dataType? ctx v = some a.resultType := by
  cases ha with
  | arithmetic hkind htype hop hlhs hrhs =>
    refine ⟨⟨typed_two (h.readAt hlhs.stands (ho.operand hkind hv htype hlhs.value))
      (h.readAt hrhs.stands (ho.operand hkind hv htype hrhs.value)), fun hfloat => ?_⟩, htype⟩
    rw [hfloat] at hop
    exact isFloat_of_binaryOp? hop
  | compareInt hkind hlhs hrhs htype hint =>
    refine ⟨⟨ho.compare h hkind hlhs hrhs htype, ?_, Bool.eq_false_iff.1 hint⟩,
      dataType?_result hv (ho.comparison hkind).2⟩
    rintro rfl
    refine hs.bits ?_ (htype ▸ operandTypes_mem hlhs.value)
    exact List.mem_cons_of_mem _ (List.mem_cons_of_mem _ hkind)
  | compareFloat hkind hlhs hrhs htype =>
    exact ⟨⟨ho.compare h hkind hlhs hrhs htype, trivial⟩,
      dataType?_result hv (ho.comparison hkind).2⟩
  | @power type _ base _ _ _ hkind hbase hexponent htype hwidth hsuffix =>
    have hresult : dataType? ctx v = dataType? ctx base := by
      have := resultTypes_getElem? hv
      rw [ho.power hkind, List.getElem?_take_of_lt Nat.one_pos,
        operandTypes_getElem? hbase.value] at this
      exact (Option.some.inj this).symm
    refine ⟨⟨typed_two (h.readAt hbase.stands htype) (h.readAt hexponent.stands hwidth), ?_⟩,
      hresult.trans htype⟩
    obtain heq | heq := List.mem_pair.1 hsuffix <;> cases heq <;>
      exact ⟨fun hprefix => absurd hprefix (by decide), List.forall_mem_cons.2
        ⟨DataType.noConfusion, List.forall_mem_singleton.2 DataType.noConfusion⟩⟩
  | load hkind htype hpointer =>
    have hptr := operandTypes_mem hpointer.value
    rw [ho.load hkind, List.mem_singleton] at hptr
    exact ⟨⟨List.forall_mem_singleton.2 (h.readAt hpointer.stands hptr), trivial⟩, htype⟩
  | alloca hkind =>
    exact ⟨⟨List.forall_mem_nil _, trivial⟩, dataType?_result hv (ho.alloca hkind)⟩
  | @offset _ _ _ _ index _ _ hkind _ _ hbase hindex hwidth =>
    obtain ⟨hptr, hbits⟩ := ho.address hkind hbase.value hindex.value
    refine ⟨⟨typed_two (h.readAt hbase.stands hptr) (h.readAt hindex.stands hwidth), ?_⟩,
      dataType?_result hv (ho.offset hkind).2⟩
    rw [hwidth] at hbits
    obtain heq | heq := hbits <;> cases heq
    · exact .inr (.inl rfl)
    · -- only a constant index may be wider than addresses are
      obtain hwide | hconst := hs.index hkind index (operand_eq_ok hindex.value) hwidth
      · exact .inr (.inr ⟨rfl, hwide⟩)
      · exact .inl ((h.operands _ (Position.mem_of_lookup hindex.stands)).constant hconst)
  | call hkind _ htype hcallee hargs =>
    obtain ⟨hreads, hbits⟩ := hs.passes h hkind hargs
    refine ⟨⟨hreads, fun hprefix => ?_, hbits⟩, htype⟩
    have hregister := dataType?_result hv (ho.call hkind _ hcallee hprefix)
    exact Option.some.inj (htype.symm.trans hregister)
  | query hquery htype =>
    obtain ⟨hresult, ha⟩ := hquery.typed
    exact ⟨ha, hresult ▸ htype⟩

/-- What is done is well typed. -/
theorem Performs.typed (ha : Performs ctx b.Finds o a) : a.Typed wide types := by
  cases ha with
  | store hkind hvalue htype hpointer =>
    have hptr := operandTypes_getElem? hpointer.value
    rw [← List.getElem?_tail, ho.store hkind] at hptr
    have hptr := (Option.some.inj hptr).symm
    exact ⟨typed_two (h.readAt hvalue.stands htype) (h.readAt hpointer.stands hptr), trivial⟩
  | call hkind hresults hcallee hargs =>
    obtain ⟨hreads, hbits⟩ := hs.passes h hkind hargs
    refine ⟨hreads, fun hprefix => ?_, hbits⟩
    have hregister := ho.call hkind _ hcallee hprefix
    rw [resultTypes, hresults] at hregister
    cases hregister
  | leave => exact ⟨List.forall_mem_nil _, fun _ h => by cases h⟩
  | answer hkind hoperands htype hp =>
    refine ⟨List.forall_mem_singleton.2 (h.readAt hp htype), fun r hr => ?_⟩
    obtain rfl := Option.some.inj hr
    rintro rfl
    refine hs.bits (hkind ▸ List.mem_cons_of_mem _ List.mem_cons_self) ?_
    exact htype ▸ List.mem_map_of_mem (hoperands ▸ List.mem_singleton_self _)
  | barrier =>
    exact ⟨List.forall_mem_nil _, fun hprefix => absurd hprefix (by decide), List.forall_mem_nil _⟩

/-- Lowering an operation keeps what is built well typed. -/
theorem LowersOp.grows (hrun : LowersOp ctx o b b') (hc : ctx.Coherent) :
    Grows ctx wide types b' := by
  have hvalue {v : ValueRef} (hv : ctx.result o 0 = .ok v) (hkind : ctx.kindOf o ≠ .const) :
      ¬IsConstant ctx v :=
    not_isConstant hc (List.mem_of_getElem? (result_eq_ok.1 hv)) hkind
  cases hrun with
  | assign _ _ _ _ hp =>
    have hconstant := isConstant_of_literal? hp
    refine (h.assign ⟨fun name hname => ?_, fun _ => hconstant⟩).grows
    exact absurd hname (Operand.ne_value_of_isConstant hconstant)
  | @perform a i ha =>
    exact ((h.declare i).push (i := { result := none, action := a }) (ha.typed h ho hs)
      fun name hname => by cases hname).grows
  | @define v a i hv ha =>
    obtain ⟨htyped, htype⟩ := ha.typed h ho hs hv
    exact ⟨_, (h.declare i).defining (hvalue hv ha.kind_ne_const) htype htyped⟩
  | @widen v a i hv htype ha =>
    -- the register has 32 bits, which are extended
    obtain ⟨hresult, htyped⟩ := ha.typed
    have hname : Numbered (types ++ [a.resultType]) (toString b.next) .i32 :=
      hresult ▸ h.count ▸ numbered_last
    have hextend : (Action.convert .zext .i32 (.value (toString b.next)) .i64).Typed wide
        (types ++ [a.resultType]) := by
      refine ⟨List.forall_mem_singleton.2 fun name heq => Operand.value.inj heq ▸ hname, ?_, ?_⟩
      · exact fun h => by cases h
      · exact fun h => by cases h
    exact .of_append
      ⟨_, ((h.declare i).number htyped).defining (hvalue hv ha.kind_ne_const) htype hextend⟩

end Typed

/-- Operations add the types of their values one after the other. -/
theorem LowersOps.grows {ops : List OpRef} (hrun : LowersOps ctx ops b b') (hc : ctx.Coherent)
    (hops : ∀ o ∈ ops, OpTyped ctx o ∧ Supported wide ctx o) (h : Built ctx wide types b) :
    Grows ctx wide types b' := by
  induction hrun generalizing types with
  | nil => exact h.grows
  | cons first _ ih =>
    obtain ⟨⟨ho, hs⟩, hops⟩ := List.forall_mem_cons.1 hops
    obtain ⟨more, hnext⟩ := first.grows h ho hs hc
    exact .of_append (ih hops hnext)

/-! ## Functions -/

variable {block : BlockRef}

/-- The parameters are named for values of their types. -/
def ParametersTyped (types : List DataType) (ps : List Parameter) : Prop :=
  ∀ p ∈ ps, ∀ name ∈ p.name, Numbered types name p.type

/-- The arguments of a block get their numbers first. -/
theorem built_started {args : List (ValueRef × DataType)}
    (hargs : ∀ e ∈ args, dataType? ctx e.1 = some e.2 ∧ ¬IsConstant ctx e.1) :
    Built ctx wide (args.map Prod.snd) (started args) ∧
      ParametersTyped (args.map Prod.snd) (parametersOf args) := by
  have hnumbered : ∀ a ∈ args.zipIdx, Numbered (args.map Prod.snd) (toString a.2) a.1.2 := by
    intro a ha
    rw [List.mem_zipIdx_iff_getElem?] at ha
    exact ⟨a.2, rfl, by rw [List.getElem?_map, ha]; rfl⟩
  refine ⟨⟨List.length_map _, fun e he => ?_, List.forall_mem_nil _, List.forall_mem_nil _⟩,
    fun p hp name hname => ?_⟩
  · obtain ⟨a, ha, rfl⟩ := mem_operands_started.1 he
    obtain ⟨htype, hconst⟩ := hargs a.1 (List.fst_mem_of_mem_zipIdx ha)
    exact ⟨fun name hname => ⟨a.1.2, htype, Operand.value.inj hname ▸ hnumbered a ha⟩,
      fun hc => absurd hc hconst⟩
  · obtain ⟨a, ha, rfl⟩ := List.mem_map.1 hp
    exact Option.some.inj hname ▸ hnumbered a ha

variable {f : Function} {needed : List Function}

/-- A function whose body is built well typed is well typed. -/
theorem Built.wellTyped (h : Built ctx wide types b)
    (hparameters : ParametersTyped types f.parameters)
    (hblocks : f.blocks = [⟨"entry", b.instructions⟩]) : f.WellTyped wide := by
  have hinstructions : f.instructions = b.instructions := by
    rw [Function.instructions, hblocks]
    exact List.append_nil _
  have htype {name : String} {type : DataType} (hnumbered : Numbered types name type) :
      types.getD (digitsValue name.toList) .void = type := by
    obtain ⟨n, rfl, hn⟩ := hnumbered
    rw [Text.digitsValue_toString, List.getD_eq_getElem?_getD, hn, Option.getD_some]
  refine ⟨⟨fun name => types.getD (digitsValue name.toList) .void, ?_, ?_, ?_⟩, ?_⟩
  · exact fun p hp name hname => htype (hparameters p hp name hname)
  · exact fun i hi name hname => htype (h.results i (hinstructions ▸ hi) name hname)
  · intro i hi u hu name hname
    exact htype ((h.actions i (hinstructions ▸ hi)).reads u hu name hname)
  · exact fun i hi => (h.actions i (hinstructions ▸ hi)).regular

/-- The arguments of a function whose types fit have the types of its parameters. -/
theorem FunctionTyped.argument {f : OpRef} {t : TypeRef} {ts : List TypeRef} {r : RegionRef}
    (h : FunctionTyped wide ctx f) (hc : ctx.Coherent) (hkind : ctx.kindOf f = .func)
    (ht : ctx.functionType f = .ok t) (hts : ctx.paramTypes t = .ok ts)
    (hlower : LowerTypes ctx ts types) (hr : r ∈ ctx.regionsOf f) (hblock : block ∈ ctx.blocksOf r)
    {e : ValueRef × DataType} (he : e ∈ (ctx.args block).zip types) :
    dataType? ctx e.1 = some e.2 ∧ ¬IsConstant ctx e.1 := by
  obtain ⟨n, hn⟩ := List.mem_iff_getElem?.1 he
  obtain ⟨harg, htype⟩ := List.getElem?_zip_eq_some.1 hn
  obtain ⟨u, hu, hlower⟩ := rel_some_right (htype ▸ forall₂_getElem? hlower n)
  have hmem : (e.1, u) ∈ (ctx.args block).zip ts :=
    List.mem_of_getElem? (List.getElem?_zip_eq_some.2 ⟨harg, hu⟩)
  refine ⟨dataType?_eq_some.2 ⟨u, h.arguments t ht ts hts r hr block hblock _ hmem, hlower⟩, ?_⟩
  rintro ⟨p, hp, hconst⟩
  rw [definer_of_mem_args hc (List.mem_of_getElem? harg), hc.holder_of_mem hr hblock] at hp
  obtain rfl := Option.some.inj hp
  rw [hkind] at hconst
  exact absurd hconst (by decide)

/-- A function whose types fit is lowered to one that is well typed. -/
theorem Lowers.wellTyped {op : OpRef} (h : Lowers ctx op f needed) (hc : ctx.Coherent)
    (htyped : FunctionTyped wide ctx op) (hbody : f.isDeclaration = false) : f.WellTyped wide := by
  obtain ⟨t, ts, types, r, region, ht, hts, hlower, hat, hregion, hlowers⟩ := h.body
  obtain ⟨ho, hkind⟩ := kind_eq_ok h.kind
  generalize hregionBlocks : region.blocks = blocks at hlowers
  cases hlowers with
  | declaration _ hblocks =>
    rw [Function.isDeclaration, hblocks] at hbody
    cases hbody
  | @definition block b hrun hblocks =>
    obtain ⟨hps, hops⟩ := lowers_of_gives_block hrun
    have hr : r ∈ ctx.regionsOf op := List.mem_of_getElem? (regionAt_eq_ok hat)
    have hblock : block ∈ ctx.blocksOf r := by
      rw [blocksOf, readRegion_of_region hregion, hregionBlocks]
      exact List.mem_singleton_self block
    obtain ⟨hstarted, hparameters⟩ : Built ctx wide _ _ ∧ _ :=
      built_started fun e he => htyped.argument hc hkind ht hts hlower hr hblock he
    have hchildren : ∀ o ∈ ctx.opsOf block, OpTyped ctx o ∧ Supported wide ctx o := fun o ho =>
      htyped.operations o (List.mem_flatMap.2 ⟨r, hr, List.mem_flatMap.2 ⟨block, hblock, ho⟩⟩)
    obtain ⟨more, hlast⟩ := hops.grows hc hchildren hstarted
    refine hlast.wellTyped (fun p hp name hname => ?_) hblocks
    exact (hparameters p (hps ▸ hp) name hname).append

/-! ## Modules -/

variable {op : OpRef} {ops : List OpRef} {m m' : Module} {i : List Function}

theorem lowerFunctions_wellTyped (hc : ctx.Coherent) (hops : ∀ f ∈ ops, FunctionTyped wide ctx f)
    (hm : m.WellTyped wide) (hrun : (lowerFunctions ctx m i ops).run = .ok (.ok (m', needed))) :
    m'.WellTyped wide := by
  induction ops generalizing m i with
  | nil =>
    cases Lowered.pure_eq_ok.1 hrun
    exact hm
  | cons o ops ih =>
    obtain ⟨f, _, kernel, next, hf, -, hadd, hrest⟩ := lowerFunctions_cons hrun
    obtain ⟨ho, hops⟩ := List.forall_mem_cons.1 hops
    refine ih hops (fun g hg hbody => ?_) hrest
    rw [Module.functions_add hadd] at hg
    obtain hg | hg := List.mem_append.1 hg
    · exact hm g hg hbody
    · obtain rfl := List.mem_singleton.1 hg
      exact hf.wellTyped hc ho hbody

/-- The code of a device module is well typed if the types of its functions fit. -/
theorem lowerModule_wellTyped (hc : ctx.Coherent) (hblock : ctx.blockAt op 0 = .ok block)
    (htyped : ∀ f ∈ ctx.opsOf block, FunctionTyped wide ctx f)
    (hrun : (lowerModule ctx op name).run = .ok (.ok m)) : m.WellTyped wide := by
  obtain ⟨b, row, m', ⟨needed, hfunctions⟩, hb, hrow, ⟨new, hnew, hdeclared⟩, -, -⟩ :=
    lowerModule_eq_ok hrun
  obtain rfl := Except.ok.inj (hblock.symm.trans hb)
  rw [opsOf, readBlock_of_block hrow] at htyped
  have hempty : ({ name } : Module).WellTyped wide := fun f hf => absurd hf List.not_mem_nil
  intro f hf hbody
  rw [hnew] at hf
  obtain hf | hf := List.mem_append.1 hf
  · exact lowerFunctions_wellTyped hc htyped hempty hfunctions f hf hbody
  · rw [hdeclared f hf] at hbody
    cases hbody

end Device

end Offload
