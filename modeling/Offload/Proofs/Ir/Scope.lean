import Offload.Proofs.Ir.Sound

/-!
# Scope as a relation

A value is *in scope* at an operation if it is an argument of a block that the
operation is in, or the result of an operation that comes before the operation,
or before one around it, in their common block (`InScope`). Every value has one
operation to which it belongs, the one that has it as a result or whose block has
it as an argument (`definer`), and it is *defined within* the operations around
that one (`DefinedWithin`).
-/

namespace Offload.Context

variable {ctx : Context}

/-- The operation that a value belongs to. -/
def definer (ctx : Context) (v : ValueRef) : Option OpRef :=
  match ctx.sourceOf v with
  | some (.result o _) => some o
  | some (.argument b _) => ctx.holder b
  | none => none

/-- A value belongs to something in the tree of an operation. -/
def DefinedWithin (ctx : Context) (o : OpRef) (v : ValueRef) : Prop :=
  ∃ p, ctx.definer v = some p ∧ ctx.Within p o

/-- An operation comes before another one in a block. -/
def Precedes (ctx : Context) (p o : OpRef) : Prop :=
  ∃ b before after, ctx.opsOf b = before ++ o :: after ∧ p ∈ before

/-- What a value comes from is in scope at an operation. -/
def InScope (ctx : Context) (o : OpRef) (v : ValueRef) : Prop :=
  ∃ w, ctx.Within o w ∧ match ctx.sourceOf v with
    | some (.argument b _) => ctx.blockOf w = some b
    | some (.result p _) => ctx.Precedes p w
    | none => False

theorem InScope.within {o p : OpRef} {v : ValueRef} (h : ctx.InScope p v)
    (hw : ctx.Within o p) : ctx.InScope o v := by
  obtain ⟨w, hw', h⟩ := h
  exact ⟨w, hw.trans hw', h⟩

theorem mem_results_iff (h : ctx.Coherent) {o : OpRef} {v : ValueRef} :
    v ∈ ctx.results o ↔ ∃ n, ctx.sourceOf v = some (.result o n) := by
  rw [List.mem_iff_getElem?]
  exact exists_congr fun n => h.values.result_iff o n v

theorem mem_args_iff (h : ctx.Coherent) {b : BlockRef} {v : ValueRef} :
    v ∈ ctx.args b ↔ ∃ n, ctx.sourceOf v = some (.argument b n) := by
  rw [List.mem_iff_getElem?]
  exact exists_congr fun n => h.values.argument_iff b n v

theorem Coherent.results_nodup (h : ctx.Coherent) (o : OpRef) : (ctx.results o).Nodup :=
  Position.nodup_of_position (r := fun v n => ctx.sourceOf v = some (.result o n))
    (fun _ _ _ h₁ h₂ => (ValueDef.result.inj (Option.some.inj (h₁.symm.trans h₂))).2)
    fun n v => (h.values.result_iff o n v).1

theorem Coherent.args_nodup (h : ctx.Coherent) (b : BlockRef) : (ctx.args b).Nodup :=
  Position.nodup_of_position (r := fun v n => ctx.sourceOf v = some (.argument b n))
    (fun _ _ _ h₁ h₂ => (ValueDef.argument.inj (Option.some.inj (h₁.symm.trans h₂))).2)
    fun n v => (h.values.argument_iff b n v).1

theorem definer_of_mem_results (h : ctx.Coherent) {o : OpRef} {v : ValueRef}
    (hv : v ∈ ctx.results o) : ctx.definer v = some o := by
  obtain ⟨n, hn⟩ := (mem_results_iff h).1 hv
  rw [definer, hn]

theorem definer_of_mem_args (h : ctx.Coherent) {b : BlockRef} {v : ValueRef}
    (hv : v ∈ ctx.args b) : ctx.definer v = ctx.holder b := by
  obtain ⟨n, hn⟩ := (mem_args_iff h).1 hv
  rw [definer, hn]

theorem Coherent.hasOp_of_definer (h : ctx.Coherent) {v : ValueRef} {o : OpRef}
    (hv : ctx.definer v = some o) : ctx.HasOp o := by
  rw [definer] at hv
  split at hv
  · rename_i p n hsource
    obtain rfl := Option.some.inj hv
    by_contra hn
    have hres := (h.values.result_iff p n v).2 hsource
    rw [results_eq_readOp, readOp_of_not_hasOp hn] at hres
    cases hres
  · exact h.hasOp_of_holder hv
  · cases hv

theorem index_lt_of_sourceOf {v : ValueRef} {source : ValueDef} (h : ctx.sourceOf v = some source) :
    v.index < ctx.values.size := by
  by_contra hn
  rw [sourceOf, Array.getElem?_eq_none (Nat.not_lt.1 hn)] at h
  cases h

theorem index_lt_of_definedWithin {o : OpRef} {v : ValueRef} (h : ctx.DefinedWithin o v) :
    v.index < ctx.values.size := by
  obtain ⟨p, hp, -⟩ := h
  cases hsource : ctx.sourceOf v with
  | none =>
    rw [definer, hsource] at hp
    cases hp
  | some source => exact index_lt_of_sourceOf hsource

theorem Precedes.above_eq (h : ctx.Coherent) {p o : OpRef} (hp : ctx.Precedes p o) :
    ctx.above p = ctx.above o := by
  obtain ⟨b, before, after, hb, hm⟩ := hp
  have ho : ctx.blockOf o = some b := (h.ops.owner_iff o b).2 (by simp [hb])
  have hp : ctx.blockOf p = some b := (h.ops.owner_iff p b).2 (by simp [hb, hm])
  rw [above, above, ho, hp]

theorem Precedes.ne (h : ctx.Coherent) {p o : OpRef} (hp : ctx.Precedes p o) : p ≠ o := by
  obtain ⟨b, before, after, hb, hm⟩ := hp
  rintro rfl
  have hnodup := h.ops.nodup b
  rw [hb, List.nodup_append] at hnodup
  exact hnodup.2.2 p hm p List.mem_cons_self rfl

/-! ## The values of a tree, level by level -/

/-- A value belongs to a block, or to something in it. -/
def DefinedInBlock (ctx : Context) (b : BlockRef) (v : ValueRef) : Prop :=
  v ∈ ctx.args b ∨ ∃ o ∈ ctx.opsOf b, ctx.DefinedWithin o v

/-- A value belongs to something in a region. -/
def DefinedInRegion (ctx : Context) (r : RegionRef) (v : ValueRef) : Prop :=
  ∃ b ∈ ctx.blocksOf r, ctx.DefinedInBlock b v

theorem Coherent.holder_of_mem (h : ctx.Coherent) {b : BlockRef} {r : RegionRef} {o : OpRef}
    (hr : r ∈ ctx.regionsOf o) (hb : b ∈ ctx.blocksOf r) : ctx.holder b = some o := by
  rw [holder, (h.blocks.owner_iff b r).2 hb]
  exact (h.regions.owner_iff r o).2 hr

theorem Coherent.hasBlock_of_holder (h : ctx.Coherent) {b : BlockRef} {o : OpRef}
    (hb : ctx.holder b = some o) : ctx.HasBlock b := by
  obtain ⟨r, hr, -⟩ := Option.bind_eq_some_iff.1 hb
  exact h.hasBlock_of_mem ((h.blocks.owner_iff b r).1 hr)

theorem Coherent.above_of_mem (h : ctx.Coherent) {o : OpRef} {b : BlockRef}
    (ho : o ∈ ctx.opsOf b) : ctx.above o = ctx.holder b := by
  rw [above, (h.ops.owner_iff o b).2 ho]
  rfl

/-- What is in a block with something nested in an operation is nested in it as well. -/
theorem Coherent.within_of_beside (h : ctx.Coherent) {b : BlockRef} {o p a : OpRef}
    (ho : o ∈ ctx.opsOf b) (hp : p ∈ ctx.opsOf b) (hw : ctx.Within o a) (hne : o ≠ a) :
    ctx.Within p a := by
  obtain ⟨t, ht, hw⟩ := (within_iff_above.1 hw).resolve_left hne
  exact (within_of_above ((h.above_of_mem hp).trans ((h.above_of_mem ho).symm.trans ht))).trans hw

theorem Coherent.definedWithin_iff (h : ctx.Coherent) {o : OpRef} {v : ValueRef} :
    ctx.DefinedWithin o v ↔
      v ∈ ctx.results o ∨ ∃ r ∈ ctx.regionsOf o, ctx.DefinedInRegion r v := by
  constructor
  · rintro ⟨p, hp, hw⟩
    rcases within_iff_below.1 hw with rfl | ⟨c, hc, hw⟩
    · rw [definer] at hp
      split at hp
      · rename_i q n hsource
        obtain rfl := Option.some.inj hp
        exact .inl ((mem_results_iff h).2 ⟨n, hsource⟩)
      · rename_i b n hsource
        obtain ⟨r, hb, hr⟩ := Option.bind_eq_some_iff.1 hp
        exact .inr ⟨r, (h.regions.owner_iff r p).1 hr, b, (h.blocks.owner_iff b r).1 hb,
          .inl ((mem_args_iff h).2 ⟨n, hsource⟩)⟩
      · cases hp
    · obtain ⟨b, r, hb, hr, ho⟩ := above_eq_some_iff.1 hc
      exact .inr ⟨r, (h.regions.owner_iff r o).1 ho, b, (h.blocks.owner_iff b r).1 hr,
        .inr ⟨c, (h.ops.owner_iff c b).1 hb, p, hp, hw⟩⟩
  · rintro (hv | ⟨r, hr, b, hb, hv | ⟨c, hc, p, hp, hw⟩⟩)
    · exact ⟨o, definer_of_mem_results h hv, .refl o⟩
    · exact ⟨o, (definer_of_mem_args h hv).trans (h.holder_of_mem hr hb), .refl o⟩
    · exact ⟨p, hp, hw.trans
        (within_of_above ((h.above_of_mem hc).trans (h.holder_of_mem hr hb)))⟩

/-- Everything in a block of an operation belongs to the operation, or is within
    one directly in it. -/
theorem DefinedInBlock.definedWithin (h : ctx.Coherent) {b : BlockRef} {o : OpRef} {v : ValueRef}
    (hv : ctx.DefinedInBlock b v) (hb : ctx.holder b = some o) : ctx.DefinedWithin o v := by
  obtain ⟨r, hr, ho⟩ := Option.bind_eq_some_iff.1 hb
  exact h.definedWithin_iff.2
    (.inr ⟨r, (h.regions.owner_iff r o).1 ho, b, (h.blocks.owner_iff b r).1 hr, hv⟩)

/-- The trees of operations directly in the same one define different values. -/
theorem Sound.eq_of_definedWithin (h : ctx.Sound) {o p a : OpRef} {v : ValueRef}
    (ho : ctx.above o = some a) (hp : ctx.above p = some a) (hvo : ctx.DefinedWithin o v)
    (hvp : ctx.DefinedWithin p v) : o = p := by
  obtain ⟨d, hd, hdo⟩ := hvo
  obtain ⟨d', hd', hdp⟩ := hvp
  obtain rfl := Option.some.inj (hd.symm.trans hd')
  rcases hdo.total hdp with hw | hw
  · exact h.grounded.eq_of_siblings ho hp hw
  · exact (h.grounded.eq_of_siblings hp ho hw).symm

/-- What belongs to an operation itself is not defined within one directly in
    it. -/
theorem Sound.not_definedWithin (h : ctx.Sound) {o p : OpRef} {v : ValueRef}
    (hv : ctx.definer v = some o) (hp : ctx.above p = some o) : ¬ctx.DefinedWithin p v := by
  rintro ⟨d, hd, hw⟩
  obtain rfl := Option.some.inj (hv.symm.trans hd)
  exact h.grounded.not_within_above hp hw

/-- The blocks of an operation define different values. -/
theorem Sound.eq_of_definedInBlock (h : ctx.Sound) {b c : BlockRef} {a : OpRef} {v : ValueRef}
    (hb : ctx.holder b = some a) (hc : ctx.holder c = some a) (hvb : ctx.DefinedInBlock b v)
    (hvc : ctx.DefinedInBlock c v) : b = c := by
  have hcoh := h.coherent
  rcases hvb with hvb | ⟨o, ho, hvo⟩ <;> rcases hvc with hvc | ⟨p, hp, hvp⟩
  · obtain ⟨m, hm⟩ := (mem_args_iff hcoh).1 hvb
    obtain ⟨n, hn⟩ := (mem_args_iff hcoh).1 hvc
    exact (ValueDef.argument.inj (Option.some.inj (hm.symm.trans hn))).1
  · exact absurd hvp (h.not_definedWithin ((definer_of_mem_args hcoh hvb).trans hb)
      ((hcoh.above_of_mem hp).trans hc))
  · exact absurd hvo (h.not_definedWithin ((definer_of_mem_args hcoh hvc).trans hc)
      ((hcoh.above_of_mem ho).trans hb))
  · obtain rfl := h.eq_of_definedWithin ((hcoh.above_of_mem ho).trans hb)
      ((hcoh.above_of_mem hp).trans hc) hvo hvp
    exact hcoh.ops.owner_unique ho hp

/-- The regions of an operation define different values. -/
theorem Sound.eq_of_definedInRegion (h : ctx.Sound) {r s : RegionRef} {a : OpRef} {v : ValueRef}
    (hr : r ∈ ctx.regionsOf a) (hs : s ∈ ctx.regionsOf a) (hvr : ctx.DefinedInRegion r v)
    (hvs : ctx.DefinedInRegion s v) : r = s := by
  obtain ⟨b, hb, hvb⟩ := hvr
  obtain ⟨c, hc, hvc⟩ := hvs
  obtain rfl := h.eq_of_definedInBlock (h.coherent.holder_of_mem hr hb)
    (h.coherent.holder_of_mem hs hc) hvb hvc
  exact h.coherent.blocks.owner_unique hb hc

/-- The results of an operation are not defined in its regions. -/
theorem Sound.not_mem_results (h : ctx.Sound) {o : OpRef} {r : RegionRef} {v : ValueRef}
    (hr : r ∈ ctx.regionsOf o) (hv : ctx.DefinedInRegion r v) : v ∉ ctx.results o := by
  intro hm
  obtain ⟨b, hb, hv | ⟨c, hc, hv⟩⟩ := hv
  · obtain ⟨m, hm⟩ := (mem_results_iff h.coherent).1 hm
    obtain ⟨n, hn⟩ := (mem_args_iff h.coherent).1 hv
    cases hm.symm.trans hn
  · exact h.not_definedWithin (definer_of_mem_results h.coherent hm)
      ((h.coherent.above_of_mem hc).trans (h.coherent.holder_of_mem hr hb)) hv

/-- The scope at an operation: the arguments of its block, what comes before it
    there, and the scope at the operation above. -/
theorem Coherent.inScope_cases (h : ctx.Coherent) {b : BlockRef} {o : OpRef}
    {before after : List OpRef} (hb : ctx.opsOf b = before ++ o :: after) {v : ValueRef}
    (hv : ctx.InScope o v) : v ∈ ctx.args b ∨ (∃ p ∈ before, v ∈ ctx.results p) ∨
      ∃ a, ctx.holder b = some a ∧ ctx.InScope a v := by
  have ho : o ∈ ctx.opsOf b := by simp [hb]
  obtain ⟨w, hw, hv⟩ := hv
  rcases within_iff_above.1 hw with rfl | ⟨a, ha, hw⟩
  · split at hv
    · rename_i c n hsource
      obtain rfl := Option.some.inj (((h.ops.owner_iff o b).2 ho).symm.trans hv)
      exact .inl ((mem_args_iff h).2 ⟨n, hsource⟩)
    · rename_i p n hsource
      obtain ⟨c, before', after', hc, hp⟩ := hv
      obtain rfl := h.ops.owner_unique (p := b) (q := c) ho (by simp [hc])
      obtain ⟨rfl, rfl⟩ := Position.split_unique (hb ▸ h.ops.nodup b) (hb.symm.trans hc)
      exact .inr (.inl ⟨p, hp, (mem_results_iff h).2 ⟨n, hsource⟩⟩)
    · cases hv
  · exact .inr (.inr ⟨a, (h.above_of_mem ho).symm.trans ha, w, hw, hv⟩)

theorem Coherent.inScope_iff (h : ctx.Coherent) {b : BlockRef} {o : OpRef}
    {before after : List OpRef} (hb : ctx.opsOf b = before ++ o :: after) {v : ValueRef} :
    ctx.InScope o v ↔ v ∈ ctx.args b ∨ (∃ p ∈ before, v ∈ ctx.results p) ∨
      ∃ a, ctx.holder b = some a ∧ ctx.InScope a v := by
  have ho : o ∈ ctx.opsOf b := by simp [hb]
  refine ⟨h.inScope_cases hb, ?_⟩
  rintro (hv | ⟨p, hp, hv⟩ | ⟨a, ha, hv⟩)
  · obtain ⟨n, hn⟩ := (mem_args_iff h).1 hv
    refine ⟨o, .refl o, ?_⟩
    rw [hn]
    exact (h.ops.owner_iff o b).2 ho
  · obtain ⟨n, hn⟩ := (mem_results_iff h).1 hv
    refine ⟨o, .refl o, ?_⟩
    rw [hn]
    exact ⟨b, before, after, hb, hp⟩
  · exact hv.within (within_of_above ((h.above_of_mem ho).trans ha))

/-- An operation with anything in scope stands in a block. -/
theorem Coherent.exists_split_of_inScope (h : ctx.Coherent) {o : OpRef} {v : ValueRef}
    (hv : ctx.InScope o v) : ∃ b before after, ctx.opsOf b = before ++ o :: after := by
  have key (b : BlockRef) (hb : ctx.blockOf o = some b) :
      ∃ b before after, ctx.opsOf b = before ++ o :: after := by
    obtain ⟨before, after, hops⟩ := List.append_of_mem ((h.ops.owner_iff o b).1 hb)
    exact ⟨b, before, after, hops⟩
  obtain ⟨w, hw, hv⟩ := hv
  rcases within_iff_above.1 hw with rfl | ⟨a, ha, -⟩
  · split at hv
    · exact key _ hv
    · obtain ⟨b, before, after, hops, -⟩ := hv
      exact ⟨b, before, after, hops⟩
    · cases hv
  · obtain ⟨b, hb, -⟩ := Option.bind_eq_some_iff.1 ha
    exact key b hb

/-- What is in scope at an operation is defined outside it. -/
theorem Sound.not_definedWithin_of_inScope (h : ctx.Sound) {o : OpRef} {v : ValueRef}
    (hv : ctx.InScope o v) : ¬ctx.DefinedWithin o v := by
  rintro ⟨d, hd, hdo⟩
  obtain ⟨w, hw, hv⟩ := hv
  rw [definer] at hd
  split at hv
  · rename_i b n hsource
    rw [hsource] at hd
    have hwd : ctx.above w = some d := by rw [above, hv]; exact hd
    exact h.grounded.not_within_above hwd (hdo.trans hw)
  · rename_i p n hsource
    rw [hsource] at hd
    obtain rfl := Option.some.inj hd
    rcases within_iff_above.1 (hdo.trans hw) with rfl | ⟨a, ha, hwa⟩
    · exact hv.ne h.coherent rfl
    · have hwa' := (hv.above_eq h.coherent).symm.trans ha
      exact h.grounded.not_within_above hwa' hwa
  · exact hv

/-! ## What comes earlier -/

/-- A value is an argument of a block around an operation, or is defined in something that
    comes before the operation there: in its scope, or nested in what would be. -/
def Earlier (ctx : Context) (o : OpRef) (v : ValueRef) : Prop :=
  ∃ w, ctx.Within o w ∧ ∃ b before after, ctx.opsOf b = before ++ w :: after ∧
    (v ∈ ctx.args b ∨ ∃ p ∈ before, ctx.DefinedWithin p v)

theorem Earlier.within {o p : OpRef} {v : ValueRef} (h : ctx.Earlier p v) (hw : ctx.Within o p) :
    ctx.Earlier o v := by
  obtain ⟨w, hpw, hv⟩ := h
  exact ⟨w, hw.trans hpw, hv⟩

/-- Values come earlier at an operation if they are arguments of its block or defined in
    something before it there, or if they do so at the operation above. -/
theorem Coherent.earlier_iff (h : ctx.Coherent) {b : BlockRef} {o : OpRef}
    {before after : List OpRef} (hb : ctx.opsOf b = before ++ o :: after) {v : ValueRef} :
    ctx.Earlier o v ↔ v ∈ ctx.args b ∨ (∃ p ∈ before, ctx.DefinedWithin p v) ∨
      ∃ a, ctx.holder b = some a ∧ ctx.Earlier a v := by
  have ho : o ∈ ctx.opsOf b := by simp [hb]
  constructor
  · rintro ⟨w, hw, c, before', after', hc, hv⟩
    rcases within_iff_above.1 hw with rfl | ⟨a, ha, hw⟩
    · obtain rfl := h.ops.owner_unique (p := b) (q := c) ho (by simp [hc])
      obtain ⟨rfl, rfl⟩ := Position.split_unique (hb ▸ h.ops.nodup b) (hb.symm.trans hc)
      exact hv.imp id .inl
    · exact .inr (.inr ⟨a, (h.above_of_mem ho).symm.trans ha, w, hw, c, before', after', hc, hv⟩)
  · rintro (hv | hv | ⟨a, ha, hv⟩)
    · exact ⟨o, .refl o, b, before, after, hb, .inl hv⟩
    · exact ⟨o, .refl o, b, before, after, hb, .inr hv⟩
    · exact hv.within (within_of_above ((h.above_of_mem ho).trans ha))

/-- What is in scope comes earlier. -/
theorem Coherent.earlier_of_inScope (h : ctx.Coherent) {o : OpRef} {v : ValueRef}
    (hv : ctx.InScope o v) : ctx.Earlier o v := by
  obtain ⟨w, hw, hv⟩ := hv
  split at hv
  · rename_i b n hsource
    obtain ⟨before, after, hops⟩ := List.append_of_mem ((h.ops.owner_iff w b).1 hv)
    exact ⟨w, hw, b, before, after, hops, .inl ((mem_args_iff h).2 ⟨n, hsource⟩)⟩
  · rename_i p n hsource
    obtain ⟨b, before, after, hops, hp⟩ := hv
    exact ⟨w, hw, b, before, after, hops, .inr ⟨p, hp, h.definedWithin_iff.2
      (.inl ((mem_results_iff h).2 ⟨n, hsource⟩))⟩⟩
  · cases hv

/-- What comes earlier than an operation is defined outside it. -/
theorem Sound.not_definedWithin_of_earlier (h : ctx.Sound) {o : OpRef} {v : ValueRef}
    (hv : ctx.Earlier o v) : ¬ctx.DefinedWithin o v := by
  rintro ⟨d, hd, hdo⟩
  obtain ⟨w, hw, b, before, after, hops, hv⟩ := hv
  have habove : ctx.above w = ctx.holder b := h.coherent.above_of_mem (by simp [hops])
  rcases hv with hv | ⟨p, hp, hv⟩
  · rw [definer_of_mem_args h.coherent hv, ← habove] at hd
    exact h.grounded.not_within_above hd (hdo.trans hw)
  · -- the two stand in one block, and the value cannot be in both
    have hmem : p ∈ ctx.opsOf b := by simp [hops, hp]
    have hne : p ≠ w := by
      rintro rfl
      have hnodup := hops ▸ h.coherent.ops.nodup b
      exact (List.nodup_append.1 hnodup).2.2 _ hp _ List.mem_cons_self rfl
    obtain ⟨d', hd', hdp⟩ := hv
    obtain rfl := Option.some.inj (hd.symm.trans hd')
    have heq : ctx.blockOf p = ctx.blockOf w := by
      rw [(h.coherent.ops.owner_iff p b).2 hmem, (h.coherent.ops.owner_iff w b).2 (by simp [hops])]
    rcases hdp.total (hdo.trans hw) with hpw | hwp
    · rcases within_iff_above.1 hpw with e | ⟨a, ha, haw⟩
      · exact hne e
      · rw [above, heq] at ha
        exact h.grounded.not_within_above ha haw
    · rcases within_iff_above.1 hwp with e | ⟨a, ha, hap⟩
      · exact hne e.symm
      · rw [above, ← heq] at ha
        exact h.grounded.not_within_above ha hap

/-! ## Values that stay inside -/

/-- A value is held inside an operation alone. -/
def KeptIn (ctx : Context) (o : OpRef) (v : ValueRef) : Prop :=
  ∀ q, v ∈ ctx.heldBy q → ctx.Within q o

/-- What is defined inside an operation is held inside it alone, but for its results. -/
def Sealed (ctx : Context) (o : OpRef) : Prop :=
  ∀ v, ctx.DefinedWithin o v → v ∉ ctx.results o → ctx.KeptIn o v

/-- What is defined inside an operation is held inside it alone, and so are its results. -/
def Closed (ctx : Context) (o : OpRef) : Prop := ∀ v, ctx.DefinedWithin o v → ctx.KeptIn o v

end Offload.Context
