import Offload.Dialect.Parts
import Offload.Proofs.Access
import Offload.Proofs.Source.Mention

/-!
# The parts of operations of a valid program

The shapes of the kinds and the accessors of their parts are given apart from each other. They
agree: all parts of an operation that has the shape of its kind are there (`Shaped.parts?_ok`).
-/

namespace Offload.Context

variable {ctx : Context} {o : OpRef} {shape : Shape}

/-! ## Named parts -/

namespace Fits

theorem operandPart (h : ctx.Fits shape o) (ho : ctx.HasOp o) (name : String) {n : Nat}
    (hn : n < shape.operands.least) : ∃ part, ctx.operandPart o name n = .ok part := by
  obtain ⟨v, -, hv⟩ := h.operand ho hn
  exact ⟨_, by rw [Context.operandPart, hv]; rfl⟩

theorem resultPart (h : ctx.Fits shape o) (hone : shape.results = some 1) :
    ∃ part, ctx.resultPart o = .ok part := by
  obtain ⟨v, -, hv⟩ := h.result hone Nat.one_pos
  exact ⟨_, by rw [Context.resultPart, hv]; rfl⟩

theorem regionPart (h : ctx.Fits shape o) (ho : ctx.HasOp o) (name : String) {n : Nat}
    {count : BlockCount} (hn : shape.regions[n]? = some count) :
    ∃ part, ctx.regionPart o name n = .ok part := by
  obtain ⟨r, -, hr, -⟩ := h.regionAt ho hn
  exact ⟨_, by rw [Context.regionPart, hr]; rfl⟩

theorem blockPart (h : ctx.Fits shape o) (hc : ctx.Coherent) (ho : ctx.HasOp o) (name : String)
    (hn : shape.regions[0]? = some .one) : ∃ part, ctx.blockPart o name = .ok part := by
  obtain ⟨r, -, b, -, hb, -⟩ := h.blockAt hc ho hn
  exact ⟨_, by rw [Context.blockPart, hb]; rfl⟩

theorem elementPart (h : ctx.Fits shape o) (ho : ctx.HasOp o) (hmentioned : ctx.Mentioned)
    (hm : ("elem_type", .type) ∈ shape.attributes) : ∃ part, ctx.elementPart o = .ok part := by
  obtain ⟨t, ht, -⟩ := h.elementType ho hmentioned hm
  exact ⟨_, by rw [Context.elementPart, ht]; rfl⟩

end Fits

theorem symbolName?_ok (ho : ctx.HasOp o) : ∃ name, ctx.symbolName? o = .ok name :=
  ⟨_, attribute?_ok ho _ _⟩

theorem binary?_ok (ho : ctx.HasOp o) : ∃ data, ctx.binary? o = .ok data :=
  ⟨_, attribute?_ok ho _ _⟩

theorem isKernel_ok (ho : ctx.HasOp o) : ∃ answer, ctx.isKernel o = .ok answer := by
  obtain ⟨row, hrow⟩ := hasOp_iff.1 ho
  exact ⟨_, by rw [isKernel, hrow]; rfl⟩

/-! ## Parts by kind -/

namespace Shaped

variable (h : ctx.Shaped o) (hc : ctx.Coherent) (ho : ctx.HasOp o)
include h hc ho

theorem functionParts_ok (hmentioned : ctx.Mentioned) (hkind : ctx.kindOf o = .func) :
    ∃ parts, ctx.functionParts o = .ok parts := by
  have hfits := h.fits _ (by rw [hkind]; rfl)
  obtain ⟨t, htype, ht⟩ := hfits.functionType ho hmentioned (by decide)
  obtain ⟨name, hname⟩ := hfits.functionName ho (by decide)
  obtain ⟨r, hr, hregion, -⟩ := hfits.regionAt ho (n := 0) rfl
  obtain ⟨kernel, hkernel⟩ := isKernel_ok ho
  obtain ⟨ret, hret, -⟩ := returnType?_ok hmentioned ht
  obtain ⟨params, hparams, -⟩ := paramTypes_ok hmentioned ht
  obtain ⟨row, hrow⟩ := hasRegion_iff.1 (hc.hasRegion_of_mem hr)
  simp only [functionParts, regionPart, isDeclaration, htype, hname, hregion, hkernel, hret,
    hparams, hrow, entry?_ok (hc.hasRegion_of_mem hr), Outcome.ok_bind]
  exact ⟨_, rfl⟩

theorem loopParts_ok (hkind : ctx.kindOf o = .loop) : ∃ parts, ctx.loopParts o = .ok parts := by
  have hfits := h.fits _ (by rw [hkind]; rfl)
  obtain ⟨lower, hlower⟩ := hfits.operandPart ho "lower" (n := 0) (by decide)
  obtain ⟨upper, hupper⟩ := hfits.operandPart ho "upper" (n := 1) (by decide)
  obtain ⟨step, hstep⟩ := hfits.operandPart ho "step" (n := 2) (by decide)
  obtain ⟨body, hbody⟩ := hfits.regionPart ho "body" (n := 0) rfl
  obtain ⟨entry, hentry⟩ := hfits.blockPart hc ho "body_block" rfl
  obtain ⟨row, hrow⟩ := hasOp_iff.1 ho
  obtain ⟨r, hr, b, hregion, hb, hblocks⟩ := hfits.blockAt hc ho (n := 0) rfl
  have hfirst : (ctx.regionsOf o).head? = some r := by
    obtain ⟨row, hrow⟩ := hasOp_iff.1 ho
    rw [regionAt, hrow, Outcome.ok_bind] at hregion
    rw [regionsOf, readOp_of_op hrow, List.head?_eq_getElem?, found_eq_ok_iff.1 hregion]
  obtain ⟨iv, rest, hargs⟩ := List.exists_cons_of_ne_nil
    (h.counts hkind r hfirst b (by rw [hblocks]; rfl))
  simp only [loopParts, hlower, hupper, hstep, hbody, hentry, hrow, hb, arg, hargs,
    List.getElem?_cons_zero, found_some, Outcome.ok_bind]
  exact ⟨_, rfl⟩

/-- The parts of an operation that has the shape of its kind are there. -/
theorem parts?_ok (hmentioned : ctx.Mentioned) : ∃ parts, ctx.parts? o = .ok parts := by
  obtain ⟨row, hrow⟩ := hasOp_iff.1 ho
  have hkind : ctx.kindOf o = row.kind := readOp_of_op hrow _ _
  rw [parts?, hrow, Outcome.ok_bind]
  refine Outcome.ite_ok (fun hbinary => ?_) fun _ => ?_
  · have hfits := h.fits _ (hkind ▸ OpKind.shape?_of_mem_binary _ (List.contains_iff_mem.1 hbinary))
    obtain ⟨lhs, hlhs⟩ := hfits.operandPart ho "lhs" (n := 0) (by decide)
    obtain ⟨rhs, hrhs⟩ := hfits.operandPart ho "rhs" (n := 1) (by decide)
    obtain ⟨result, hresult⟩ := hfits.resultPart rfl
    exact ⟨_, by rw [hlhs, hrhs, hresult]; rfl⟩
  refine Outcome.ite_ok (fun hgrid => ?_) fun _ => ?_
  · have hfits := h.fits OpKind.gridShape (by
      rw [hkind]
      exact OpKind.shape?_of_mem_grid _ (List.contains_iff_mem.1 hgrid))
    obtain ⟨d, hd⟩ := hfits.dimension ho (by decide)
    obtain ⟨result, hresult⟩ := hfits.resultPart rfl
    exact ⟨_, by rw [hd, hresult]; rfl⟩
  refine Outcome.ite_ok (fun hmodule => ?_) fun _ => ?_
  · have hfits := h.fits _ (by rw [hkind, hmodule]; rfl)
    obtain ⟨name, hname⟩ := symbolName?_ok ho
    obtain ⟨body, hbody⟩ := hfits.regionPart ho "body" (n := 0) rfl
    obtain ⟨entry, hentry⟩ := hfits.blockPart hc ho "body_block" rfl
    exact ⟨_, by rw [hname, hbody, hentry]; rfl⟩
  refine Outcome.ite_ok (fun hmodule => ?_) fun _ => ?_
  · have hfits := h.fits _ (by rw [hkind, hmodule]; rfl)
    obtain ⟨name, hname⟩ := hfits.gpuModuleName ho (by decide)
    obtain ⟨body, hbody⟩ := hfits.regionPart ho "body" (n := 0) rfl
    obtain ⟨entry, hentry⟩ := hfits.blockPart hc ho "body_block" rfl
    obtain ⟨data, hdata⟩ := binary?_ok ho
    exact ⟨_, by rw [hname, hbody, hentry, hdata]; rfl⟩
  refine Outcome.ite_ok (fun hfunc => ?_) fun _ => ?_
  · obtain ⟨parts, hparts⟩ := h.functionParts_ok hc ho hmentioned (hkind.trans hfunc)
    exact ⟨_, by rw [hparts]; rfl⟩
  refine Outcome.ite_ok (fun hcall => ?_) fun _ => ?_
  · obtain ⟨name, hname⟩ := (h.fits _ (by rw [hkind, hcall]; rfl)).callee ho (by decide)
    exact ⟨_, by rw [hname]; rfl⟩
  refine Outcome.ite_ok (fun _ => ⟨_, rfl⟩) fun _ => ?_
  refine Outcome.ite_ok (fun hconst => ?_) fun _ => ?_
  · have hfits := h.fits _ (by rw [hkind, hconst]; rfl)
    obtain ⟨a, ha⟩ := hfits.constant ho (by decide)
    obtain ⟨result, hresult⟩ := hfits.resultPart rfl
    exact ⟨_, by rw [ha, hresult]; rfl⟩
  refine Outcome.ite_ok (fun halloca => ?_) fun _ => ?_
  · have hfits := h.fits _ (by rw [hkind, halloca]; rfl)
    obtain ⟨element, helement⟩ := hfits.elementPart ho hmentioned (by decide)
    obtain ⟨result, hresult⟩ := hfits.resultPart rfl
    exact ⟨_, by rw [helement, hresult]; rfl⟩
  refine Outcome.ite_ok (fun hload => ?_) fun _ => ?_
  · have hfits := h.fits _ (by rw [hkind, hload]; rfl)
    obtain ⟨ptr, hptr⟩ := hfits.operandPart ho "ptr" (n := 0) (by decide)
    obtain ⟨result, hresult⟩ := hfits.resultPart rfl
    exact ⟨_, by rw [hptr, hresult]; rfl⟩
  refine Outcome.ite_ok (fun hstore => ?_) fun _ => ?_
  · have hfits := h.fits _ (by rw [hkind, hstore]; rfl)
    obtain ⟨value, hvalue⟩ := hfits.operandPart ho "value" (n := 0) (by decide)
    obtain ⟨ptr, hptr⟩ := hfits.operandPart ho "ptr" (n := 1) (by decide)
    exact ⟨_, by rw [hvalue, hptr]; rfl⟩
  refine Outcome.ite_ok (fun hoffset => ?_) fun _ => ?_
  · have hfits := h.fits _ (by rw [hkind, hoffset]; rfl)
    obtain ⟨base, hbase⟩ := hfits.operandPart ho "base" (n := 0) (by decide)
    obtain ⟨index, hindex⟩ := hfits.operandPart ho "index" (n := 1) (by decide)
    obtain ⟨element, helement⟩ := hfits.elementPart ho hmentioned (by decide)
    obtain ⟨result, hresult⟩ := hfits.resultPart rfl
    exact ⟨_, by rw [hbase, hindex, helement, hresult]; rfl⟩
  refine Outcome.ite_ok (fun hparallel => ?_) fun _ => ?_
  · have hfits := h.fits _ (by rw [hkind, hparallel]; rfl)
    obtain ⟨body, hbody⟩ := hfits.regionPart ho "body" (n := 0) rfl
    obtain ⟨entry, hentry⟩ := hfits.blockPart hc ho "body_block" rfl
    exact ⟨_, by rw [hbody, hentry]; rfl⟩
  refine Outcome.ite_ok (fun hloop => ?_) fun _ => ?_
  · obtain ⟨parts, hparts⟩ := h.loopParts_ok hc ho (hkind.trans hloop)
    exact ⟨_, by rw [hparts]; rfl⟩
  refine Outcome.ite_ok (fun hconditional => ?_) fun _ => ?_
  · have hfits := h.fits _ (by rw [hkind, hconditional]; rfl)
    obtain ⟨cond, hcond⟩ := hfits.operandPart ho "cond" (n := 0) (by decide)
    obtain ⟨then_, hthen⟩ := hfits.regionPart ho "then" (n := 0) rfl
    obtain ⟨else_, helse⟩ := hfits.regionPart ho "else" (n := 1) rfl
    obtain ⟨entry, hentry⟩ := hfits.blockPart hc ho "then_block" rfl
    exact ⟨_, by rw [hcond, hthen, helse, hentry]; rfl⟩
  exact ⟨none, rfl⟩

end Shaped

end Offload.Context
