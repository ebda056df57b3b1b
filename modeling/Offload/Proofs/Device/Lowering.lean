import Offload.Device.Lowering
import Offload.Proofs.Access
import Offload.Proofs.Device.Nodes

/-!
# Lowering never faults

Lowering a valid program gives a module or says why there is none (`lowerModule_answers`), as long
as it meets no comparison that there is none of and that lacks the operands of comparisons
(`IsStray`): operations of `arith` whose names start with `cmp_` are taken for comparisons before it
is known whether they are, and nothing is known of operations of other kinds than
those with a shape.

A computation *answers* if it does not fault; a step of building answers if it does so whatever has
been built.
-/

namespace Offload.Device

open Context

variable {α β : Type}

/-! ## Computations that answer -/

/-- A computation does not fault. -/
def Lowered.Answers (x : Lowered α) : Prop := ∃ answer, x.run = .ok answer

namespace Lowered

theorem answers_pure (a : α) : Answers (pure a) := ⟨.ok a, rfl⟩

theorem answers_throw (e : LowerError) : Answers (throw e : Lowered α) := ⟨.error e, rfl⟩

theorem lift_ok {x : Except Fault α} {a : α} (h : x = .ok a) : (liftM x : Lowered α) = pure a := by
  subst h
  rfl

theorem answers_lift {x : Except Fault α} (h : ∃ a, x = .ok a) : Answers (liftM x : Lowered α) := by
  obtain ⟨a, rfl⟩ := h
  exact answers_pure a

theorem Answers.bind {x : Lowered α} {f : α → Lowered β} (hx : Answers x)
    (hf : ∀ a, x.run = .ok (.ok a) → Answers (f a)) : Answers (x >>= f) := by
  obtain ⟨answer, hx⟩ := hx
  change x = Except.ok answer at hx
  subst hx
  cases answer with
  | ok a => exact hf a rfl
  | error e => exact ⟨.error e, rfl⟩

theorem answers_mapM {f : α → Lowered β} {as : List α} (h : ∀ a ∈ as, Answers (f a)) :
    Answers (as.mapM f) := by
  induction as with
  | nil => exact answers_pure []
  | cons a as ih =>
    rw [List.mapM_cons]
    refine (h a List.mem_cons_self).bind fun b _ => ?_
    refine (ih fun a ha => h a (List.mem_cons_of_mem _ ha)).bind fun bs _ => ?_
    exact answers_pure (b :: bs)

end Lowered

/-- A step of building does not fault, whatever has been built. -/
def Builder.Answers (x : Builder α) : Prop := ∀ b, Lowered.Answers (x.run b)

namespace Builder

theorem answers_pure (a : α) : Answers (pure a) := fun b => Lowered.answers_pure (a, b)

theorem answers_throw (e : LowerError) : Answers (throw e : Builder α) :=
  fun _ => Lowered.answers_throw e

theorem answers_get : Answers (get : Builder Building) := fun b => Lowered.answers_pure (b, b)

theorem answers_modify (f : Building → Building) : Answers (modify f : Builder Unit) :=
  fun b => Lowered.answers_pure ((), f b)

theorem lift_ok {x : Except Fault α} {a : α} (h : x = .ok a) : (liftM x : Builder α) = pure a := by
  subst h
  rfl

theorem Answers.bind {x : Builder α} {f : α → Builder β} (hx : Answers x)
    (hf : ∀ a, Answers (f a)) : Answers (x >>= f) :=
  fun b => (hx b).bind fun (a, b') _ => hf a b'

theorem answers_ite {p : Prop} [Decidable p] {x y : Builder α} (hx : p → Answers x)
    (hy : ¬p → Answers y) : Answers (if p then x else y) := by
  split
  · exact hx ‹_›
  · exact hy ‹_›

theorem answers_mapM {f : α → Builder β} {as : List α} (h : ∀ a ∈ as, Answers (f a)) :
    Answers (as.mapM f) := by
  induction as with
  | nil => exact answers_pure []
  | cons a as ih =>
    rw [List.mapM_cons]
    refine (h a List.mem_cons_self).bind fun b => ?_
    refine (ih fun a ha => h a (List.mem_cons_of_mem _ ha)).bind fun bs => ?_
    exact answers_pure (b :: bs)

theorem answers_forM {f : α → Builder PUnit} {as : List α} (h : ∀ a ∈ as, Answers (f a)) :
    Answers (as.forM f) := by
  induction as with
  | nil => exact answers_pure ()
  | cons a as ih =>
    change Answers (f a >>= fun _ => as.forM f)
    exact (h a List.mem_cons_self).bind fun _ => ih fun a ha => h a (List.mem_cons_of_mem _ ha)

theorem answers_fresh : Answers fresh :=
  answers_get.bind fun _ => (answers_modify _).bind fun _ => answers_pure _

theorem answers_assign (v : ValueRef) (o : Operand) : Answers (assign v o) := answers_modify _

theorem answers_push (i : Instruction) : Answers (push i) := answers_modify _

theorem answers_perform (a : Action) : Answers (perform a) := answers_push _

theorem answers_define (v : ValueRef) (a : Action) : Answers (define v a) :=
  answers_fresh.bind fun _ => (answers_assign _ _).bind fun _ => answers_push _

theorem answers_require (name : String) (returnType : DataType) (types : List DataType) :
    Answers (require name returnType types) := answers_modify _

end Builder

theorem lowerType?_ok {ctx : Context} {t : TypeRef} (ht : ctx.HasType t) :
    ∃ type, lowerType? ctx t = .ok type := by
  obtain ⟨node, hnode⟩ := ht
  exact ⟨_, by rw [lowerType?, hnode]; rfl⟩

/-! ## Operations -/

/-- An operation whose name is that of a comparison by its first letters, though there is none of
    that name, and which lacks the operands of comparisons. -/
def IsStray (ctx : Context) (o : OpRef) : Prop :=
  ctx.regionsOf o = [] ∧ (ctx.kindOf o).dialect = "arith" ∧
    "cmp_".toList.isPrefixOf (ctx.kindOf o).name.toList ∧ ctx.kindOf o ∉ OpKind.binary ∧
    (ctx.operandsOf o).length < 2

instance (ctx : Context) (o : OpRef) : Decidable (IsStray ctx o) :=
  inferInstanceAs (Decidable (_ ∧ _ ∧ _ ∧ _ ∧ _))

/-- What lowering reads of an operation can be read. -/
structure Readable (ctx : Context) (o : OpRef) : Prop where
  hasOp : ctx.HasOp o
  shaped : ctx.Shaped o
  mentioned : ctx.Mentioned
  typed : ∀ v, v ∈ ctx.operandsOf o ∨ v ∈ ctx.results o → ∃ t, ctx.typeOf v = .ok t ∧ ctx.HasType t

namespace Site

variable {s : Site}

/-- What lowering reads at a site can be read. -/
structure Ready (s : Site) : Prop extends Readable s.ctx s.op where
  kind : s.kind = s.ctx.kindOf s.op

theorem answers_operandFor (v : ValueRef) : (s.operandFor v).Answers := by
  refine Builder.answers_get.bind fun b => ?_
  cases b.operands.lookup v with
  | some o => exact Builder.answers_pure o
  | none => exact Builder.answers_throw _

theorem answers_unsupported : (s.unsupported : Builder α).Answers := Builder.answers_throw _

theorem answers_unsupportedType : (s.unsupportedType : Builder α).Answers :=
  Builder.answers_throw _

theorem answers_lowerType {t : TypeRef} (ht : s.ctx.HasType t) : (s.lowerType t).Answers := by
  obtain ⟨type, htype⟩ := lowerType?_ok ht
  rw [lowerType, Builder.lift_ok htype, pure_bind]
  cases type with
  | some type => exact Builder.answers_pure type
  | none => exact answers_unsupportedType

/-- The names in a table are those of some kinds of `arith`. -/
theorem mem_kinds_of_lookup {kinds : List OpKind} {table : List (String × α)} {a : α}
    (htable : ∀ name ∈ table.map Prod.fst, (⟨"arith", name⟩ : OpKind) ∈ kinds)
    (harith : s.kind.dialect = "arith") (h : table.lookup s.kind.name = some a) :
    s.kind ∈ kinds := by
  have hmem := htable _ (List.mem_map_of_mem (Position.mem_of_lookup h))
  rw [← harith] at hmem
  exact hmem

theorem mem_binary_of_binaryOp? (harith : s.kind.dialect = "arith")
    (h : (binaryOp? s.kind.name false).isSome) : s.kind ∈ OpKind.binary := by
  obtain ⟨op, hop⟩ := Option.isSome_iff_exists.1 h
  exact mem_kinds_of_lookup (by decide) harith hop

theorem intComparison?_eq_none (harith : s.kind.dialect = "arith") (h : s.kind ∉ OpKind.binary) :
    intComparison? s.kind.name = none :=
  Option.eq_none_iff_forall_ne_some.2 fun _ hc => h (mem_kinds_of_lookup (by decide) harith hc)

theorem floatComparison?_eq_none (harith : s.kind.dialect = "arith") (h : s.kind ∉ OpKind.binary) :
    floatComparison? s.kind.name = none :=
  Option.eq_none_iff_forall_ne_some.2 fun _ hc => h (mem_kinds_of_lookup (by decide) harith hc)

namespace Ready

variable (h : s.Ready)
include h

theorem fits {shape : Shape} (hshape : s.kind.shape? = some shape) : s.ctx.Fits shape s.op :=
  h.shaped.fits shape (h.kind ▸ hshape)

theorem answers_typeFor {v : ValueRef}
    (hv : v ∈ s.ctx.operandsOf s.op ∨ v ∈ s.ctx.results s.op) : (s.typeFor v).Answers := by
  obtain ⟨t, ht, hmem⟩ := h.typed v hv
  rw [typeFor, Builder.lift_ok ht, pure_bind]
  exact answers_lowerType hmem

/-- The operand at a position that the shape has. -/
theorem operand {shape : Shape} (hfits : s.ctx.Fits shape s.op) {n : Nat}
    (hn : n < shape.operands.least) : ∃ v, s.operand n = pure v ∧ (s.typeFor v).Answers := by
  obtain ⟨v, hv, hrun⟩ := hfits.operand h.hasOp hn
  exact ⟨v, Builder.lift_ok hrun, h.answers_typeFor (.inl hv)⟩

theorem result {shape : Shape} (hfits : s.ctx.Fits shape s.op) (hone : shape.results = some 1) :
    ∃ v, s.result = pure v ∧ (s.typeFor v).Answers := by
  obtain ⟨v, hv, hrun⟩ := hfits.result hone Nat.one_pos
  exact ⟨v, Builder.lift_ok hrun, h.answers_typeFor (.inr hv)⟩

theorem answers_const (hkind : s.kind = .const) : s.const.Answers := by
  have hfits := h.fits (by rw [hkind]; rfl)
  obtain ⟨result, hresult, htype⟩ := h.result hfits rfl
  obtain ⟨a, ha⟩ := hfits.constant h.hasOp (by decide)
  simp only [const, hresult, Builder.lift_ok ha, pure_bind]
  refine htype.bind fun type => ?_
  have hassign (o : Operand) := Builder.answers_assign result o
  split
  all_goals first
    | exact hassign _
    | exact answers_unsupportedType.bind hassign

theorem answers_binary (hkind : s.kind ∈ OpKind.binary) : s.binary.Answers := by
  have hfits := h.fits (OpKind.shape?_of_mem_binary _ hkind)
  obtain ⟨lhs, hlhs, -⟩ := h.operand hfits (n := 0) (by decide)
  obtain ⟨rhs, hrhs, -⟩ := h.operand hfits (n := 1) (by decide)
  obtain ⟨result, hresult, htype⟩ := h.result hfits rfl
  simp only [binary, hlhs, hrhs, hresult, pure_bind]
  refine htype.bind fun type => ?_
  cases binaryOp? s.kind.name type.isFloat with
  | none => exact answers_unsupported
  | some op =>
    refine (answers_operandFor lhs).bind fun lhs => (answers_operandFor rhs).bind fun rhs => ?_
    exact Builder.answers_define _ _

/-- A comparison that there is none of is found out after its operands were looked up. -/
theorem answers_compare (hregions : s.ctx.regionsOf s.op = []) (harith : s.kind.dialect = "arith")
    (hcmp : "cmp_".toList.isPrefixOf s.kind.name.toList) (hstray : ¬IsStray s.ctx s.op) :
    s.compare.Answers := by
  by_cases hbinary : s.kind ∈ OpKind.binary
  · have hfits := h.fits (OpKind.shape?_of_mem_binary _ hbinary)
    obtain ⟨v, hv, htype⟩ := h.operand hfits (n := 0) (by decide)
    obtain ⟨w, hw, -⟩ := h.operand hfits (n := 1) (by decide)
    obtain ⟨result, hresult, -⟩ := h.result hfits rfl
    have hdefine (action : Action) := Builder.answers_define result action
    simp only [compare, hv, hw, hresult, pure_bind]
    refine htype.bind fun type => (answers_operandFor v).bind fun lhs =>
      (answers_operandFor w).bind fun rhs => ?_
    refine Builder.answers_ite (fun _ => ?_) fun _ => ?_
    · cases floatComparison? s.kind.name with
      | some c => exact hdefine _
      | none => exact answers_unsupported.bind hdefine
    · cases intComparison? s.kind.name with
      | some c => exact hdefine _
      | none => exact answers_unsupported.bind hdefine
  · -- it is no comparison, and has two operands because it is not stray
    have htwo : 2 ≤ (s.ctx.operandsOf s.op).length := by
      by_contra hlt
      exact hstray ⟨hregions, h.kind ▸ harith, h.kind ▸ hcmp, h.kind ▸ hbinary, not_le.1 hlt⟩
    have hoperand (n : Nat) (hn : n < 2) := operand_ok h.hasOp
      (List.getElem?_eq_getElem (hn.trans_le htwo))
    have htype := h.answers_typeFor (.inl (List.getElem_mem (Nat.two_pos.trans_le htwo)))
    have hint := intComparison?_eq_none harith hbinary
    have hfloat := floatComparison?_eq_none harith hbinary
    simp only [compare, Site.operand, Builder.lift_ok (hoperand 0 (by decide)),
      Builder.lift_ok (hoperand 1 (by decide)), pure_bind, hint, hfloat]
    refine htype.bind fun type => (answers_operandFor _).bind fun lhs =>
      (answers_operandFor _).bind fun rhs => ?_
    exact Builder.answers_ite (fun _ => answers_unsupported) fun _ => answers_unsupported

theorem answers_power (hkind : s.kind = .powi) : s.power.Answers := by
  have hfits := h.fits (by rw [hkind]; rfl)
  obtain ⟨base, hbase, hbaseType⟩ := h.operand hfits (n := 0) (by decide)
  obtain ⟨exponent, hexponent, hexponentType⟩ := h.operand hfits (n := 1) (by decide)
  obtain ⟨result, hresult, -⟩ := h.result hfits rfl
  simp only [power, hbase, hexponent, hresult, pure_bind]
  refine hbaseType.bind fun baseType => hexponentType.bind fun exponentType => ?_
  cases baseType with
  | float | double =>
    refine Builder.answers_ite (fun _ => answers_unsupportedType) fun _ => ?_
    exact (Builder.answers_require _ _ _).bind fun _ => (answers_operandFor base).bind fun _ =>
      (answers_operandFor exponent).bind fun _ => Builder.answers_define _ _
  | _ => exact answers_unsupportedType

theorem answers_load (hkind : s.kind = .load) : s.load.Answers := by
  have hfits := h.fits (by rw [hkind]; rfl)
  obtain ⟨pointer, hpointer, -⟩ := h.operand hfits (n := 0) (by decide)
  obtain ⟨result, hresult, htype⟩ := h.result hfits rfl
  simp only [load, hresult, hpointer, pure_bind]
  exact htype.bind fun type => (answers_operandFor pointer).bind fun _ =>
    Builder.answers_define _ _

theorem answers_store (hkind : s.kind = .store) : s.store.Answers := by
  have hfits := h.fits (by rw [hkind]; rfl)
  obtain ⟨value, hvalue, htype⟩ := h.operand hfits (n := 0) (by decide)
  obtain ⟨pointer, hpointer, -⟩ := h.operand hfits (n := 1) (by decide)
  simp only [store, hvalue, hpointer, pure_bind]
  exact htype.bind fun type => (answers_operandFor value).bind fun _ =>
    (answers_operandFor pointer).bind fun _ => Builder.answers_perform _

theorem answers_alloca (hkind : s.kind = .alloca) : s.alloca.Answers := by
  have hfits := h.fits (by rw [hkind]; rfl)
  obtain ⟨t, ht, hmem⟩ := hfits.elementType h.hasOp h.mentioned (by decide)
  obtain ⟨result, hresult, -⟩ := h.result hfits rfl
  simp only [alloca, Builder.lift_ok ht, hresult, pure_bind]
  exact (answers_lowerType hmem).bind fun type => Builder.answers_define _ _

theorem answers_offset (hkind : s.kind = .offset) : s.offset.Answers := by
  have hfits := h.fits (by rw [hkind]; rfl)
  obtain ⟨t, ht, hmem⟩ := hfits.elementType h.hasOp h.mentioned (by decide)
  obtain ⟨base, hbase, -⟩ := h.operand hfits (n := 0) (by decide)
  obtain ⟨index, hindex, hindexType⟩ := h.operand hfits (n := 1) (by decide)
  obtain ⟨result, hresult, -⟩ := h.result hfits rfl
  simp only [offset, Builder.lift_ok ht, hindex, hbase, hresult, pure_bind]
  exact (answers_lowerType hmem).bind fun element => hindexType.bind fun indexType =>
    (answers_operandFor base).bind fun _ => (answers_operandFor index).bind fun _ =>
      Builder.answers_define _ _

theorem answers_call (hkind : s.kind = .call) : s.call.Answers := by
  have hfits := h.fits (by rw [hkind]; rfl)
  obtain ⟨callee, hcallee⟩ := hfits.callee h.hasOp (by decide)
  obtain ⟨row, hrow⟩ := hasOp_iff.1 h.hasOp
  have hoperands : s.ctx.operandsOf s.op = row.operands := readOp_of_op hrow _ _
  rw [call, Builder.lift_ok hrow, pure_bind, Builder.lift_ok hcallee]
  refine Builder.Answers.bind (Builder.answers_mapM fun v hv => ?_) fun args => ?_
  · exact (h.answers_typeFor (.inl (hoperands ▸ hv))).bind fun type =>
      (answers_operandFor v).bind fun _ => Builder.answers_pure _
  · rw [pure_bind]
    rcases hresults : s.ctx.results s.op with - | ⟨result, - | ⟨second, rest⟩⟩
    · exact Builder.answers_perform _
    · exact (h.answers_typeFor (.inr (by simp [hresults]))).bind fun type =>
        Builder.answers_define _ _
    · exact answers_unsupported

theorem answers_funcReturn : s.funcReturn.Answers := by
  obtain ⟨row, hrow⟩ := hasOp_iff.1 h.hasOp
  have hoperands : s.ctx.operandsOf s.op = row.operands := readOp_of_op hrow _ _
  rw [funcReturn, Builder.lift_ok hrow, pure_bind]
  rcases hvalues : row.operands with - | ⟨v, - | ⟨second, rest⟩⟩
  · exact Builder.answers_perform _
  · exact (h.answers_typeFor (.inl (by simp [hoperands, hvalues]))).bind fun type =>
      (answers_operandFor v).bind fun _ => Builder.answers_perform _
  · exact answers_unsupported

theorem answers_gridQuery (register : String)
    (hkind : s.kind ∈ [OpKind.threadId, .blockId, .blockDim]) : (s.gridQuery register).Answers := by
  have hfits := h.fits (OpKind.shape?_of_mem_grid _ hkind)
  obtain ⟨d, hd⟩ := hfits.dimension h.hasOp (by decide)
  obtain ⟨result, hresult, htype⟩ := h.result hfits rfl
  simp only [gridQuery, Builder.lift_ok hd, hresult, pure_bind]
  refine (Builder.answers_require _ _ _).bind fun _ => htype.bind fun type => ?_
  cases type with
  | i32 => exact Builder.answers_define _ _
  | i64 =>
    exact Builder.answers_fresh.bind fun _ => (Builder.answers_push _).bind fun _ =>
      Builder.answers_define _ _
  | _ => exact answers_unsupportedType

/-- Lowering an operation gives an answer, unless it is stray. -/
theorem answers_lower (hstray : ¬IsStray s.ctx s.op) : s.lower.Answers := by
  obtain ⟨row, hrow⟩ := hasOp_iff.1 h.hasOp
  rw [lower, Builder.lift_ok hrow, pure_bind]
  refine Builder.answers_ite (fun _ => answers_unsupported) fun hregions => ?_
  refine Builder.answers_ite h.answers_const fun _ => ?_
  refine Builder.answers_ite h.answers_power fun _ => ?_
  refine Builder.answers_ite (fun hbinary => ?_) fun _ => ?_
  · rw [Bool.and_eq_true, decide_eq_true_eq] at hbinary
    exact h.answers_binary (mem_binary_of_binaryOp? hbinary.1 hbinary.2)
  refine Builder.answers_ite (fun hcompare => ?_) fun _ => ?_
  · rw [Bool.and_eq_true, decide_eq_true_eq] at hcompare
    refine h.answers_compare ?_ hcompare.1 hcompare.2 hstray
    rw [regionsOf, readOp_of_op hrow]
    simpa using hregions
  refine Builder.answers_ite h.answers_load fun _ => ?_
  refine Builder.answers_ite h.answers_store fun _ => ?_
  refine Builder.answers_ite h.answers_alloca fun _ => ?_
  refine Builder.answers_ite h.answers_offset fun _ => ?_
  refine Builder.answers_ite h.answers_call fun _ => ?_
  refine Builder.answers_ite (fun _ => h.answers_funcReturn) fun _ => ?_
  refine Builder.answers_ite (fun hk => h.answers_gridQuery "tid" (by simp [hk])) fun _ => ?_
  refine Builder.answers_ite (fun hk => h.answers_gridQuery "ctaid" (by simp [hk])) fun _ => ?_
  refine Builder.answers_ite (fun hk => h.answers_gridQuery "ntid" (by simp [hk])) fun _ => ?_
  refine Builder.answers_ite (fun _ => ?_) fun _ => answers_unsupported
  exact (Builder.answers_require _ _ _).bind fun _ => Builder.answers_perform _

end Ready

end Site

/-! ## Functions -/

variable {ctx : Context} {name : String} {op : OpRef}

theorem answers_lowerBlock {b : BlockRef} (types : List DataType) (hb : ctx.HasBlock b)
    (hops : ∀ o ∈ ctx.opsOf b, Readable ctx o ∧ ¬IsStray ctx o) :
    (lowerBlock ctx name b types).Answers := by
  obtain ⟨row, hrow⟩ := hasBlock_iff.1 hb
  rw [opsOf, readBlock_of_block hrow] at hops
  have hparameter (p : ValueRef × DataType) : Builder.Answers (do
      let value ← Builder.fresh
      Builder.assign p.1 (.value value)
      return (⟨p.2, some value⟩ : Parameter)) :=
    Builder.answers_fresh.bind fun _ => (Builder.answers_assign _ _).bind fun _ =>
      Builder.answers_pure _
  rw [lowerBlock, Builder.lift_ok hrow]
  refine (Builder.answers_mapM fun p _ => hparameter p).bind fun parameters => ?_
  rw [pure_bind]
  refine (Builder.answers_forM fun o ho => ?_).bind fun _ => Builder.answers_pure parameters
  obtain ⟨hreadable, hstray⟩ := hops o ho
  rw [Builder.lift_ok (kind_ok hreadable.hasOp), pure_bind]
  exact Site.Ready.answers_lower ⟨hreadable, rfl⟩ hstray

theorem answers_lowerFunction (hc : ctx.Coherent) (hop : Readable ctx op)
    (hbody : ∀ o, ctx.above o = some op → Readable ctx o ∧ ¬IsStray ctx o) :
    (lowerFunction ctx op).Answers := by
  obtain ⟨ho, hshaped, hmentioned, -⟩ := hop
  rw [lowerFunction, Lowered.lift_ok (kind_ok ho), pure_bind]
  by_cases hkind : ctx.kindOf op = .func
  swap
  · rw [if_pos hkind]
    exact Lowered.answers_throw _
  have hfits := hshaped.fits _ (by rw [hkind]; rfl)
  obtain ⟨name, hname⟩ := hfits.functionName ho (by decide)
  obtain ⟨t, htype, ht⟩ := hfits.functionType ho hmentioned (by decide)
  obtain ⟨ret, hret, hretMem⟩ := returnType?_ok hmentioned ht
  obtain ⟨params, hparams, hparamsMem⟩ := paramTypes_ok hmentioned ht
  obtain ⟨r, hr, hregionAt, -⟩ := hfits.regionAt ho (n := 0) rfl
  obtain ⟨region, hregion⟩ := hasRegion_iff.1 (hc.hasRegion_of_mem hr)
  have hblocks : ctx.blocksOf r = region.blocks := readRegion_of_region hregion _ _
  simp only [if_neg (not_not.2 hkind), Lowered.lift_ok hname, Lowered.lift_ok htype,
    Lowered.lift_ok hret, Lowered.lift_ok hparams, Lowered.lift_ok hregionAt,
    Lowered.lift_ok hregion, pure_bind]
  cases ret with
  | none => exact Lowered.answers_throw _
  | some t =>
    refine (Lowered.answers_lift (lowerType?_ok (hretMem t rfl))).bind fun returnType _ => ?_
    cases returnType with
    | none => exact Lowered.answers_throw _
    | some returnType =>
      refine (Lowered.answers_mapM fun t ht => ?_).bind fun types _ => ?_
      · refine (Lowered.answers_lift (lowerType?_ok (hparamsMem t ht))).bind fun type _ => ?_
        cases type with
        | none => exact Lowered.answers_throw _
        | some type => exact Lowered.answers_pure type
      · rcases hshape : region.blocks with - | ⟨b, - | ⟨second, rest⟩⟩
        · exact Lowered.answers_pure _
        · have hb : b ∈ ctx.blocksOf r := by simp [hblocks, hshape]
          refine (answers_lowerBlock types (hc.hasBlock_of_mem hb) (fun o ho => ?_) {}).bind
            fun _ _ => Lowered.answers_pure _
          exact hbody o ((hc.above_of_mem ho).trans (hc.holder_of_mem hr hb))
        · exact Lowered.answers_throw _

/-! ## Modules -/

/-- The nodes of a module have numbers below a bound. -/
def NodesBelow (n : Nat) (m : Module) : Prop := ∀ e ∈ m.nodes.entries, e.1.number.toNat < n

/-- There is a next number as long as few numbers are taken. -/
theorem NodesBelow.exists_next {n : Nat} {m : Module} (h : NodesBelow n m) (hn : n < UInt32.size) :
    ∃ r, m.nodes.next = .ok r ∧ r.number.toNat ≤ n := by
  rw [NodeTable.next]
  cases hlast : m.nodes.entries.getLast? with
  | none => exact ⟨⟨0⟩, rfl, Nat.zero_le n⟩
  | some e =>
    have hlt := h e (List.mem_of_getLast? hlast)
    have hfits : e.1.number.toNat + (1 : UInt32).toNat < UInt32.size :=
      (Nat.succ_le_of_lt hlt).trans_lt hn
    refine ⟨⟨e.1.number + 1⟩, if_pos hfits, ?_⟩
    rw [UInt32.toNat_add, Nat.mod_eq_of_lt hfits]
    exact hlt

theorem NodesBelow.annotateKernel {n : Nat} {m : Module} (h : NodesBelow n m) (hn : n < UInt32.size)
    (function : String) : ∃ m', m.annotateKernel function = .ok m' ∧ NodesBelow (n + 1) m' := by
  obtain ⟨r, hr, hle⟩ := h.exists_next hn
  refine ⟨_, by rw [Module.annotateKernel, Module.addNode, hr]; rfl, fun e he => ?_⟩
  obtain rfl | ⟨he, -⟩ := SortedMap.mem_set.1 he
  · exact Nat.lt_succ_of_le hle
  · exact (h e he).trans (Nat.lt_succ_self n)

theorem answers_lowerFunctions (hc : ctx.Coherent) {ops : List OpRef} {m : Module} {n : Nat}
    {i : List Function} (hm : NodesBelow n m) (hn : n + ops.length ≤ UInt32.size)
    (hops : ∀ op ∈ ops, Readable ctx op)
    (hbodies : ∀ op ∈ ops, ∀ o, ctx.above o = some op → Readable ctx o ∧ ¬IsStray ctx o) :
    (lowerFunctions ctx m i ops).Answers := by
  induction ops generalizing m n i with
  | nil => exact Lowered.answers_pure _
  | cons op ops ih =>
    rw [List.length_cons] at hn
    have hop := hops op List.mem_cons_self
    obtain ⟨row, hrow⟩ := hasOp_iff.1 hop.hasOp
    have hkernel : ctx.isKernel op = .ok (row.attributes.contains kernelKey) := by
      rw [isKernel, hrow]
      rfl
    -- at most one number is taken for each function
    have hrest {m : Module} (hm : NodesBelow (n + 1) m) (i : List Function) :=
      ih (i := i) hm (by omega) (fun o ho => hops o (List.mem_cons_of_mem _ ho))
        fun o ho => hbodies o (List.mem_cons_of_mem _ ho)
    rw [lowerFunctions]
    refine (answers_lowerFunction hc hop (hbodies op List.mem_cons_self)).bind
      fun (f, needed) _ => ?_
    obtain ⟨m', hannotated, hbelow⟩ := NodesBelow.annotateKernel
      (m := { m with functions := m.functions ++ [f] }) hm (by omega) f.name
    simp only [Lowered.lift_ok hkernel, Lowered.lift_ok hannotated, pure_bind]
    split
    · exact hrest hbelow _
    · exact hrest (m := { m with functions := m.functions ++ [f] })
        (fun e he => (hm e he).trans (Nat.lt_succ_self n)) _

variable {path text : String} {root : OpRef} {findings : Findings}

theorem readable_of_read (hread : Context.empty.read path text = (.ok root, ctx))
    (hvalid : ctx.Valid root) {o : OpRef} (ho : ctx.HasOp o) : Readable ctx o where
  hasOp := ho
  shaped := hvalid.shaped o (Build.read_within hread ho)
  mentioned := Build.read_mentioned hread
  typed v hv := by
    obtain hv | hv := hv
    · obtain ⟨p, hp⟩ := Build.read_definer hread (hvalid.inScope o (Build.read_within hread ho) v hv)
      exact Build.read_typeOf hread hp
    · exact Build.read_typeOf hread (definer_of_mem_results (Build.read_built hread).1.coherent hv)

/-- Lowering a device module of a valid program gives device code or says why there is none, unless
    a function of the module has a stray operation. The nodes that make functions kernels are
    numbered in 32 bits, so there are to be no more functions than that. -/
theorem lowerModule_answers (hread : Context.empty.read path text = (.ok root, ctx))
    (hfindings : ctx.findings root = .ok findings) (hvalid : findings.isEmpty)
    (hop : ctx.Within op root) (hkind : ctx.kindOf op = .gpuModule)
    (hmany : (ctx.childrenOf op).length ≤ UInt32.size)
    (hstray : ∀ f ∈ ctx.childrenOf op, ∀ o ∈ ctx.childrenOf f, ¬IsStray ctx o) (name : String) :
    ∃ answer, (lowerModule ctx op name).run = .ok answer := by
  have hvalid := Build.read_valid hread hfindings hvalid
  obtain ⟨hsound, hroot, -⟩ := Build.read_built hread
  have hc := hsound.coherent
  have ho := hc.hasOp_of_within' hop hroot
  have hfits := (hvalid.shaped op hop).fits _ (by rw [hkind]; rfl)
  obtain ⟨b, row, hb, hrow, hops⟩ := hfits.childrenOf_eq hc ho rfl
  rw [hops] at hmany hstray
  have habove {f : OpRef} (hf : f ∈ row.ops) : ctx.above f = some op :=
    hc.mem_childrenOf.1 (hops ▸ hf)
  have hanswers := answers_lowerFunctions (m := { name }) (n := 0) (i := []) hc
    (fun e he => by cases he) (by omega)
    (fun f hf => readable_of_read hread hvalid (hc.hasOp_of_above (habove hf)).1)
    fun f hf o ho => ⟨readable_of_read hread hvalid (hc.hasOp_of_above ho).1,
      hstray f hf o (hc.mem_childrenOf.2 ho)⟩
  rw [lowerModule, Lowered.lift_ok hb, pure_bind, Lowered.lift_ok hrow, pure_bind]
  exact hanswers.bind fun _ _ => Lowered.answers_pure _

/-- A comparison that there is none of, of two operands. -/
def unknownComparison : String :=
  "gpu.module @m \x7b
  func.func @f \x7btype = func.fn(core.nil, core.i32)\x7d \x7b
    ^bb0(%a: core.i32):
      %r = arith.cmp_un %a, %a : core.i1
      func.return
  \x7d
\x7d
"

set_option maxRecDepth 100000 in
theorem lowerModule_answers_unknownComparison : ∃ root ctx findings,
    Context.empty.read "f" unknownComparison = (.ok root, ctx) ∧
      ctx.findings root = .ok findings ∧ findings.isEmpty ∧ ctx.Within root root ∧
      ctx.kindOf root = .gpuModule ∧ (ctx.childrenOf root).length ≤ UInt32.size ∧
      (∀ f ∈ ctx.childrenOf root, ∀ o ∈ ctx.childrenOf f, ¬IsStray ctx o) ∧
      ∃ answer, (lowerModule ctx root "m").run = .ok answer := by
  have hreads : Build.readsAs "f" unknownComparison fun root ctx =>
      decide (ctx.kindOf root = .gpuModule ∧ (ctx.childrenOf root).length ≤ UInt32.size ∧
        ∀ f ∈ ctx.childrenOf root, ∀ o ∈ ctx.childrenOf f, ¬IsStray ctx o) :=
    Build.readsAs_ofList (by decide +kernel)
  obtain ⟨root, ctx, findings, hread, hfindings, hvalid, htest⟩ := Build.exists_of_readsAs hreads
  obtain ⟨hkind, hmany, hstray⟩ := of_decide_eq_true htest
  exact ⟨root, ctx, findings, hread, hfindings, hvalid, .refl root, hkind, hmany, hstray,
    lowerModule_answers hread hfindings hvalid (.refl root) hkind hmany hstray "m"⟩

end Offload.Device
