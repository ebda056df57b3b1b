import Offload.Dialect.Access
import Offload.Proofs.Source.Mention

/-!
# Accessors of operations with a shape

An accessor faults if the part that it reads is not there. An operation that fits a shape has the
parts that the shape names: its operands, results and regions up to the number of the
shape (`Fits.operand`, `Fits.result`, `Fits.regionAt`), the first block of a region that has exactly
one (`Fits.blockAt`), and attributes of the sort that the shape says (`Fits.entry`). A type that the
program mentions can be read as that of functions (`returnType?_ok`, `paramTypes_ok`).
-/

namespace Offload

/-- The least number of operands that is admitted. -/
def OperandCount.least : OperandCount → Nat
  | exactly n | atLeast n => n

theorem OperandCount.least_le {count : OperandCount} {n : Nat} (h : count.admits n) :
    count.least ≤ n := by
  cases count with
  | exactly m => exact (of_decide_eq_true h).ge
  | atLeast m => exact of_decide_eq_true h

/-- Kinds of operations on two scalars have the shape of these. -/
theorem OpKind.shape?_of_mem_binary : ∀ kind ∈ binary,
    kind.shape? = some { operands := .exactly 2, results := some 1 } := by decide

theorem OpKind.shape?_of_mem_grid : ∀ kind ∈ [threadId, blockId, blockDim],
    kind.shape? = some gridShape := by decide

namespace Context

variable {ctx : Context} {o : OpRef}

/-! ## What accessors read -/

theorem operand_ok (ho : ctx.HasOp o) {n : Nat} {v : ValueRef}
    (hv : (ctx.operandsOf o)[n]? = some v) : ctx.operand o n = .ok v := by
  obtain ⟨row, hrow⟩ := hasOp_iff.1 ho
  rw [operandsOf, readOp_of_op hrow] at hv
  rw [operand, hrow, Outcome.ok_bind, hv, found_some]

theorem regionAt_ok (ho : ctx.HasOp o) {n : Nat} {r : RegionRef}
    (hr : (ctx.regionsOf o)[n]? = some r) : ctx.regionAt o n = .ok r := by
  obtain ⟨row, hrow⟩ := hasOp_iff.1 ho
  rw [regionsOf, readOp_of_op hrow] at hr
  rw [regionAt, hrow, Outcome.ok_bind, hr, found_some]

theorem operand_eq_ok {n : Nat} {v : ValueRef} (h : ctx.operand o n = .ok v) :
    (ctx.operandsOf o)[n]? = some v := by
  obtain ⟨row, hrow, h⟩ := Outcome.bind_eq_ok.1 h
  rw [operandsOf, readOp_of_op hrow]
  exact found_eq_ok_iff.1 h

theorem regionAt_eq_ok {n : Nat} {r : RegionRef} (h : ctx.regionAt o n = .ok r) :
    (ctx.regionsOf o)[n]? = some r := by
  obtain ⟨row, hrow, h⟩ := Outcome.bind_eq_ok.1 h
  rw [regionsOf, readOp_of_op hrow]
  exact found_eq_ok_iff.1 h

theorem result_eq_ok {n : Nat} {v : ValueRef} :
    ctx.result o n = .ok v ↔ (ctx.results o)[n]? = some v := found_eq_ok_iff

theorem entry?_ok {r : RegionRef} (hr : ctx.HasRegion r) :
    ctx.entry? r = .ok (ctx.blocksOf r).head? := by
  obtain ⟨row, hrow⟩ := hasRegion_iff.1 hr
  rw [ entry?, hrow, blocksOf, readRegion_of_region hrow]
  rfl

theorem attribute?_ok {α : Type} (ho : ctx.HasOp o) (key : String) (view : Attribute → Option α) :
    ctx.attribute? o key view = .ok (((ctx.attributesOf o).get? key).bind view) := by
  obtain ⟨row, hrow⟩ := hasOp_iff.1 ho
  rw [attribute?, hrow, attributesOf, readOp_of_op hrow]
  rfl

/-- A change of an operation that leaves an attribute alone. -/
theorem attribute?_congr {α : Type} {ctx' : Context} {key : String} {g : Operation → Operation}
    (hop : ctx'.op o = (ctx.op o).map g)
    (hg : ∀ row, (g row).attributes.get? key = row.attributes.get? key)
    (view : Attribute → Option α) : ctx'.attribute? o key view = ctx.attribute? o key view := by
  rw [attribute?, attribute?, hop]
  cases ctx.op o with
  | error fault => rfl
  | ok row => exact congrArg (fun b : Option Attribute => Except.ok (b.bind view)) (hg row)

theorem requireAttribute_ok {α : Type} (ho : ctx.HasOp o) {key : String}
    {view : Attribute → Option α} {a : Attribute} {x : α} (missing : Fault)
    (ha : (ctx.attributesOf o).get? key = some a) (hx : view a = some x) :
    ctx.requireAttribute o key view missing = .ok x := by
  rw [requireAttribute, attribute?_ok ho, ha, Outcome.ok_bind, Option.bind_some, hx]
  rfl

/-! ## Parts that are there -/

namespace Fits

variable {shape : Shape}

theorem operand (h : ctx.Fits shape o) (ho : ctx.HasOp o) {n : Nat} (hn : n < shape.operands.least) :
    ∃ v ∈ ctx.operandsOf o, ctx.operand o n = .ok v := by
  have hlt := hn.trans_le (OperandCount.least_le h.operands)
  exact ⟨_, List.getElem_mem hlt, operand_ok ho (List.getElem?_eq_getElem hlt)⟩

theorem result (h : ctx.Fits shape o) {m n : Nat} (hm : shape.results = some m) (hn : n < m) :
    ∃ v ∈ ctx.results o, ctx.result o n = .ok v := by
  have hlt : n < (ctx.results o).length := (h.results m hm).symm ▸ hn
  refine ⟨_, List.getElem_mem hlt, ?_⟩
  rw [Context.result, List.getElem?_eq_getElem hlt, found_some]

theorem regionAt (h : ctx.Fits shape o) (ho : ctx.HasOp o) {n : Nat} {count : BlockCount}
    (hn : shape.regions[n]? = some count) :
    ∃ r ∈ ctx.regionsOf o, ctx.regionAt o n = .ok r ∧ count.admits (ctx.blocksOf r).length := by
  have hlt : n < (ctx.regionsOf o).length := by
    rw [h.regions.length_eq]
    exact (List.getElem?_eq_some_iff.1 hn).1
  have hcount := List.Forall₂.get h.regions hlt (h.regions.length_eq ▸ hlt)
  rw [List.get_eq_getElem, List.get_eq_getElem, (List.getElem?_eq_some_iff.1 hn).2] at hcount
  exact ⟨_, List.getElem_mem hlt, regionAt_ok ho (List.getElem?_eq_getElem hlt), hcount⟩

/-- A region that has exactly one block has a first one. -/
theorem blockAt (h : ctx.Fits shape o) (hc : ctx.Coherent) (ho : ctx.HasOp o) {n : Nat}
    (hn : shape.regions[n]? = some .one) :
    ∃ r ∈ ctx.regionsOf o, ∃ b, ctx.regionAt o n = .ok r ∧ ctx.blockAt o n = .ok b ∧
      ctx.blocksOf r = [b] := by
  obtain ⟨r, hr, hat, hone⟩ := h.regionAt ho hn
  obtain ⟨b, hb⟩ := List.length_eq_one_iff.1 (of_decide_eq_true hone)
  refine ⟨r, hr, b, hat, ?_, hb⟩
  rw [Context.blockAt, hat, Outcome.ok_bind, entry?_ok (hc.hasRegion_of_mem hr), hb]
  rfl

/-- An operation with one region of one block has the operations of that block right under it. -/
theorem childrenOf_eq (h : ctx.Fits shape o) (hc : ctx.Coherent) (ho : ctx.HasOp o)
    (hone : shape.regions = [.one]) :
    ∃ b row, ctx.blockAt o 0 = .ok b ∧ ctx.block b = .ok row ∧ ctx.childrenOf o = row.ops := by
  obtain ⟨r, hr, b, -, hb, hblocks⟩ := h.blockAt hc ho (n := 0) (by rw [hone]; rfl)
  obtain ⟨row, hrow⟩ := hasBlock_iff.1 (hc.hasBlock_of_mem (hblocks ▸ List.mem_singleton_self b))
  obtain ⟨s, hs⟩ : ∃ s, ctx.regionsOf o = [s] :=
    List.length_eq_one_iff.1 (h.regions.length_eq.trans (by rw [hone]; rfl))
  obtain rfl : r = s := List.mem_singleton.1 (hs ▸ hr)
  have hops : ctx.opsOf b = row.ops := readBlock_of_block hrow _ _
  exact ⟨b, row, hb, hrow, by simp [childrenOf, hs, hblocks, hops]⟩

theorem entry (h : ctx.Fits shape o) {key : String} {sort : AttributeSort}
    (hm : (key, sort) ∈ shape.attributes) :
    ∃ a, (ctx.attributesOf o).get? key = some a ∧ sort.admits a := by
  have hnone := List.filterMap_eq_nil_iff.1 h.attributes (key, sort) hm
  dsimp only at hnone
  cases ha : (ctx.attributesOf o).get? key with
  | none => simp [ha] at hnone
  | some a =>
    refine ⟨a, rfl, ?_⟩
    simpa [ha] using hnone

/-- An attribute of a sort with a view is read by that view. -/
theorem requireAttribute {α : Type} (h : ctx.Fits shape o) (ho : ctx.HasOp o) {key : String}
    {sort : AttributeSort} {view : Attribute → Option α} (missing : Fault)
    (hm : (key, sort) ∈ shape.attributes)
    (hview : ∀ a, sort.admits a → (view a).isSome) :
    ∃ a x, (ctx.attributesOf o).get? key = some a ∧ view a = some x ∧
      ctx.requireAttribute o key view missing = .ok x := by
  obtain ⟨a, ha, hsort⟩ := h.entry hm
  obtain ⟨x, hx⟩ := Option.isSome_iff_exists.1 (hview a hsort)
  exact ⟨a, x, ha, hx, requireAttribute_ok ho missing ha hx⟩

/-- A type among the attributes is one that the program mentions. -/
theorem requireType (h : ctx.Fits shape o) (ho : ctx.HasOp o) (hmentioned : ctx.Mentioned)
    {key : String} (missing : Fault) (hm : (key, .type) ∈ shape.attributes) :
    ∃ t, ctx.requireAttribute o key Attribute.asType? missing = .ok t ∧ ctx.HasType t := by
  obtain ⟨a, t, ha, ht, hrun⟩ := h.requireAttribute ho missing hm fun _ hsort => hsort
  exact ⟨t, hrun, hmentioned.entry o (key, a) (Position.mem_of_lookup ha) t ht⟩

theorem elementType (h : ctx.Fits shape o) (ho : ctx.HasOp o) (hmentioned : ctx.Mentioned)
    (hm : ("elem_type", .type) ∈ shape.attributes) :
    ∃ t, ctx.elementType o = .ok t ∧ ctx.HasType t :=
  h.requireType ho hmentioned _ hm

theorem dimension (h : ctx.Fits shape o) (ho : ctx.HasOp o)
    (hm : ("dimension", .dimension) ∈ shape.attributes) : ∃ d, ctx.dimension o = .ok d := by
  obtain ⟨a, d, -, -, hd⟩ := h.requireAttribute ho _ hm fun _ hsort => hsort
  exact ⟨d, hd⟩

theorem constant (h : ctx.Fits shape o) (ho : ctx.HasOp o)
    (hm : ("value", .any) ∈ shape.attributes) : ∃ a, ctx.constant o = .ok a := by
  obtain ⟨a, ha, -⟩ := h.entry hm
  exact ⟨a, requireAttribute_ok ho _ ha rfl⟩

theorem callee (h : ctx.Fits shape o) (ho : ctx.HasOp o)
    (hm : ("callee", .symbol) ∈ shape.attributes) : ∃ name, ctx.callee o = .ok name := by
  obtain ⟨a, x, -, -, hx⟩ := h.requireAttribute ho _ hm fun _ hsort => hsort
  exact ⟨x, hx⟩

theorem functionName (h : ctx.Fits shape o) (ho : ctx.HasOp o)
    (hm : ("sym_name", .symbol) ∈ shape.attributes) : ∃ name, ctx.functionName o = .ok name := by
  obtain ⟨a, x, -, -, hx⟩ := h.requireAttribute ho _ hm fun _ hsort => hsort
  exact ⟨x, hx⟩

theorem functionType (h : ctx.Fits shape o) (ho : ctx.HasOp o) (hmentioned : ctx.Mentioned)
    (hm : ("type", .type) ∈ shape.attributes) :
    ∃ t, ctx.functionType o = .ok t ∧ ctx.HasType t :=
  h.requireType ho hmentioned _ hm

theorem gpuModuleName (h : ctx.Fits shape o) (ho : ctx.HasOp o)
    (hm : ("sym_name", .symbol) ∈ shape.attributes) : ∃ name, ctx.gpuModuleName o = .ok name := by
  obtain ⟨a, x, -, -, hx⟩ := h.requireAttribute ho _ hm fun _ hsort => hsort
  exact ⟨x, hx⟩

end Fits

/-! ## Types of functions -/

/-- The result type that is read from a type is in the table. -/
theorem returnType?_ok (hmentioned : ctx.Mentioned) {t : TypeRef} (ht : ctx.HasType t) :
    ∃ r, ctx.returnType? t = .ok r ∧ ∀ u ∈ r, ctx.HasType u := by
  obtain ⟨node, hnode⟩ := ht
  rw [returnType?, isType, hnode, Outcome.ok_bind]
  by_cases hfn : node.dialect = "func" ∧ node.name = "fn"
  · refine ⟨node.params.head?, by simp [hfn], fun u hu => ?_⟩
    exact hmentioned.param t node hnode u (List.mem_of_head? hu)
  · exact ⟨none, by simp [hfn], fun u hu => by cases hu⟩

/-- The parameter types that are read from a type are in the table. -/
theorem paramTypes_ok (hmentioned : ctx.Mentioned) {t : TypeRef} (ht : ctx.HasType t) :
    ∃ ts, ctx.paramTypes t = .ok ts ∧ ∀ u ∈ ts, ctx.HasType u := by
  obtain ⟨node, hnode⟩ := ht
  rw [paramTypes, isType, hnode, Outcome.ok_bind]
  by_cases hfn : node.dialect = "func" ∧ node.name = "fn"
  · refine ⟨node.params.tail, by simp [hfn], fun u hu => ?_⟩
    exact hmentioned.param t node hnode u (List.mem_of_mem_tail hu)
  · exact ⟨[], by simp [hfn], fun u hu => by cases hu⟩

end Context

end Offload
