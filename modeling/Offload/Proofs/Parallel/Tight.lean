import Offload.Proofs.Ir.Copy
import Offload.Proofs.Parallel.Invariant

/-!
# Why the parallel patterns never fault

An operation can be erased only when no value that is defined in it is used elsewhere,
and a copy takes the place of an operation only if its operands have been copied before it
is. So more has to be known of a program than that it is `Stable`, before it is
known that the patterns can be applied to it without a fault. A program is `Tight` if
moreover

* all that holds a value is in the program;
* an operand is defined earlier, though perhaps deep inside an earlier operation, or it is
  foreign;
* what is defined inside an operation is used inside it alone (`Sealed`), unless a barrier or
  the terminator of the block comes next (`Backed`): the loop or conditional that a
  parallel region was swapped with is the only thing that is looked into, by what is last in the
  region;
* what is defined in the last operation of a parallel region is used there alone.

Valid programs are tight (`Valid.tight`). What stands right before a parallel region is
sealed, so it can be moved into it.
-/

namespace Offload.Context

variable {ctx ctx' : Context} {root o : OpRef}

/-- A barrier comes next, or the terminator that ends the block. -/
def Backed (ctx : Context) (o : OpRef) : Prop :=
  ∃ b before next after, ctx.opsOf b = before ++ o :: next :: after ∧
    (ctx.kindOf next = .barrier ∨ after = [] ∧ (ctx.kindOf next).isTerminator)

/-- What the patterns keep of a program, and need to be applied without a fault. -/
structure Tight (ctx : Context) (root : OpRef) : Prop extends ctx.Stable root where
  root_ne_loop : ctx.kindOf root ≠ .loop
  root_ne_conditional : ctx.kindOf root ≠ .conditional
  holders : ∀ q, ctx.heldBy q ≠ [] → ctx.Within q root
  earlier : ∀ q, ctx.Within q root → ∀ v ∈ ctx.operandsOf q, ctx.Earlier q v ∨ ctx.Foreign v
  sealed_or_backed : ∀ x, ctx.Within x root → ctx.Sealed x ∨ ctx.Backed x
  closed : ∀ b p last, ctx.holder b = some p → ctx.Within p root → ctx.kindOf p = .parallel →
    (ctx.opsOf b).getLast? = some last → ctx.Closed last

/-! ## Valid programs -/

/-- What is used in scope is used inside whatever it is nested in. -/
theorem InScope.within_of_definedWithin (h : ctx.Coherent) {q x : OpRef} {v : ValueRef}
    (hv : ctx.InScope q v) (hx : ctx.DefinedWithin x v) (hres : v ∉ ctx.results x) :
    ctx.Within q x := by
  obtain ⟨p, hp, hw⟩ := hx
  obtain ⟨w, hqw, hplace⟩ := hv
  refine hqw.trans ?_
  rw [definer] at hp
  split at hp
  · rename_i p' n hsource
    obtain rfl := Option.some.inj hp
    rw [hsource] at hplace
    rcases within_iff_above.1 hw with rfl | ⟨a, ha, hwa⟩
    · exact absurd ((mem_results_iff h).2 ⟨n, hsource⟩) hres
    · rw [hplace.above_eq h] at ha
      exact (within_of_above ha).trans hwa
  · rename_i b n hsource
    rw [hsource] at hplace
    exact (within_of_above (Option.bind_eq_some_iff.2 ⟨b, hplace, hp⟩)).trans hw
  · cases hp

/-- The last operation of a block has no results that are in scope anywhere. -/
theorem not_inScope_of_getLast? (h : ctx.Coherent) {b : BlockRef} {last q : OpRef} {v : ValueRef}
    (hlast : (ctx.opsOf b).getLast? = some last) (hv : v ∈ ctx.results last) :
    ¬ctx.InScope q v := by
  rintro ⟨w, -, hplace⟩
  obtain ⟨n, hsource⟩ := (mem_results_iff h).1 hv
  rw [hsource] at hplace
  obtain ⟨c, before, after, hc, hmem⟩ := hplace
  obtain rfl : c = b := h.ops.owner_unique (by rw [hc]; simp [hmem]) (List.mem_of_getLast? hlast)
  -- it would stand twice in its block
  rw [hc, List.getLast?_append_cons] at hlast
  have hnodup := h.ops.nodup c
  rw [hc] at hnodup
  exact (List.nodup_append.1 hnodup).2.2 last hmem last (List.mem_of_getLast? hlast) rfl

/-- The root has no operands, for there is nothing that they could be. -/
theorem Valid.operandsOf_root (h : ctx.Valid root) (hdetached : ctx.blockOf root = none)
    (hc : ctx.Coherent) : ctx.operandsOf root = [] := by
  refine List.eq_nil_iff_forall_not_mem.2 fun v hv => ?_
  obtain ⟨b, before, after, hb⟩ := hc.exists_split_of_inScope (h.inScope root (.refl root) v hv)
  have hroot := (hc.ops.owner_iff root b).2 (by simp [hb])
  rw [hdetached] at hroot
  cases hroot

/-- A valid program is tight, if there is nothing else. -/
theorem Valid.tight (h : ctx.Valid root) (hstable : ctx.Stable root)
    (hall : ∀ o, ctx.HasOp o → ctx.Within o root) : ctx.Tight root := by
  have hc := hstable.sound.coherent
  have hnone := h.operandsOf_root hstable.detached hc
  have hholders (q : OpRef) (hq : ctx.heldBy q ≠ []) : ctx.Within q root := by
    refine hall q ?_
    by_contra hn
    exact hq (readOp_of_not_hasOp hn _ _)
  have hscope (q : OpRef) (v : ValueRef) (hq : v ∈ ctx.heldBy q) : ctx.InScope q v := by
    have hw := hholders q (List.ne_nil_of_mem hq)
    rw [heldBy_eq, if_neg (hstable.live q hw)] at hq
    exact h.inScope q hw v hq
  have hsealed (x : OpRef) : ctx.Sealed x := fun v hx hres q hq =>
    (hscope q v hq).within_of_definedWithin hc hx hres
  refine ⟨hstable, fun hkind => ?_, fun hkind => ?_, hholders,
    fun q hq v hv => .inl (hc.earlier_of_inScope (h.inScope q hq v hv)),
    fun x _ => .inl (hsealed x), fun b p last _ _ _ hlast v hx q hq => ?_⟩
  · have hfits := (h.shaped root (.refl root)).fits _ (by rw [hkind]; exact shape?_loop)
    have hcount := hfits.operands
    rw [hnone] at hcount
    exact absurd hcount (by decide)
  · have hfits := (h.shaped root (.refl root)).fits _ (by rw [hkind]; exact shape?_conditional)
    have hcount := hfits.operands
    rw [hnone] at hcount
    exact absurd hcount (by decide)
  · exact hsealed last v hx (fun hres => not_inScope_of_getLast? hc hlast hres (hscope q v hq)) q hq

/-! ## What follows -/

theorem Coherent.not_backed_of_next (h : ctx.Coherent) {x next : OpRef} {b : BlockRef}
    {before after : List OpRef} (hb : ctx.opsOf b = before ++ x :: next :: after)
    (hbarrier : ctx.kindOf next ≠ .barrier) (hterm : ¬(ctx.kindOf next).isTerminator) :
    ¬ctx.Backed x := by
  rintro ⟨c, before', next', after', hc, hnext⟩
  obtain rfl : c = b := h.ops.owner_unique (c := x) (by simp [hc]) (by simp [hb])
  obtain ⟨-, e⟩ := Position.split_unique (hb ▸ h.ops.nodup c) (hb.symm.trans hc)
  obtain ⟨rfl, -⟩ := List.cons.inj e
  exact hnext.elim hbarrier fun hlast => hterm hlast.2

namespace Tight

variable (h : ctx.Tight root)

include h

/-- What holds a value is in the program, and the value is defined earlier or foreign. -/
theorem of_mem_heldBy {q : OpRef} {v : ValueRef} (hv : v ∈ ctx.heldBy q) :
    ctx.Within q root ∧ v ∈ ctx.operandsOf q ∧ (ctx.Earlier q v ∨ ctx.Foreign v) := by
  have hq := h.holders q (List.ne_nil_of_mem hv)
  rw [heldBy_eq, if_neg (h.live q hq)] at hv
  exact ⟨hq, hv, h.earlier q hq v hv⟩

theorem heldBy_of_within {q : OpRef} (hq : ctx.Within q root) :
    ctx.heldBy q = ctx.operandsOf q := by
  rw [heldBy_eq, if_neg (h.live q hq)]

/-- Only values that are there are held. -/
theorem index_lt {q : OpRef} {v : ValueRef} (hv : v ∈ ctx.heldBy q) :
    v.index < ctx.values.size := by
  rcases (h.of_mem_heldBy hv).2.2 with ⟨w, -, b, before, after, -, hv | ⟨p, -, hv⟩⟩ | ⟨p, hp, -⟩
  · obtain ⟨n, hsource⟩ := (mem_args_iff h.sound.coherent).1 hv
    exact index_lt_of_sourceOf hsource
  · exact index_lt_of_definedWithin hv
  · exact index_lt_of_definedWithin ⟨p, hp, .refl p⟩

/-- What stands right before something that is neither a barrier nor a terminator is
    sealed. -/
theorem sealed_of_next {x next : OpRef} {b : BlockRef} {before after : List OpRef}
    (hb : ctx.opsOf b = before ++ x :: next :: after) (hx : ctx.Within x root)
    (hbarrier : ctx.kindOf next ≠ .barrier) (hterm : ¬(ctx.kindOf next).isTerminator) :
    ctx.Sealed x :=
  (h.sealed_or_backed x hx).resolve_right
    (h.sound.coherent.not_backed_of_next hb hbarrier hterm)

/-- What an operation in the program holds is visible in any tree that it is in. -/
theorem visible {z top : OpRef} (hz : ctx.Within z top) (htop : ctx.Within top root) :
    ∀ v ∈ ctx.operandsOf z, Visible ctx top z v := fun v hv =>
  (h.earlier z (hz.trans htop) v hv).imp_right fun hforeign =>
    h.not_definedWithin_of_foreign htop hforeign

end Tight

end Offload.Context
