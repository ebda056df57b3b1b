import Offload.Proofs.Ir.Growth

/-!
# What changes leave as it was

A program is rewritten by changes in place and by copies. After any number of
them the rows that were there at the start are still there: their fixed parts are
the same, what was erased stays erased, and an operation that was not erased holds
as many operands as before (`Evolves`).
-/

namespace Offload.Context

/-- The rows are kept, up to places, operands and marks. -/
structure Evolves (ctx ctx' : Context) : Prop where
  op : ∀ o row, ctx.op o = .ok row → ∃ row', ctx'.op o = .ok row' ∧ row'.fixed = row.fixed
  block : ∀ b row, ctx.block b = .ok row → ∃ row', ctx'.block b = .ok row' ∧ row'.fixed = row.fixed
  region : ∀ r row, ctx.region r = .ok row → ctx'.region r = .ok row
  value : ∀ v row, ctx.value v = .ok row → ctx'.value v = .ok row
  erased : ∀ o, ctx.isErased o → ctx'.isErased o
  held : ∀ o, ctx.HasOp o → ¬ctx'.isErased o →
    (ctx'.heldBy o).length = (ctx.heldBy o).length
  types : ctx'.types = ctx.types
  paths : ctx'.paths = ctx.paths

variable {ctx ctx₁ ctx₂ : Context}

theorem hasOp_of_isErased {o : OpRef} (h : ctx.isErased o) : ctx.HasOp o := by
  by_contra hn
  rw [isErased_eq_readOp, readOp_of_not_hasOp hn] at h
  cases h

namespace Evolves

theorem refl (ctx : Context) : ctx.Evolves ctx :=
  ⟨fun _ row h => ⟨row, h, rfl⟩, fun _ row h => ⟨row, h, rfl⟩, fun _ _ h => h, fun _ _ h => h,
    fun _ h => h, fun _ _ _ => rfl, rfl, rfl⟩

theorem hasOp (h : ctx.Evolves ctx₁) {o : OpRef} (ho : ctx.HasOp o) : ctx₁.HasOp o := by
  obtain ⟨row, hrow⟩ := hasOp_iff.1 ho
  obtain ⟨row', hrow', -⟩ := h.op o row hrow
  exact hasOp_iff.2 ⟨row', hrow'⟩

theorem hasBlock (h : ctx.Evolves ctx₁) {b : BlockRef} (hb : ctx.HasBlock b) :
    ctx₁.HasBlock b := by
  obtain ⟨row, hrow⟩ := hasBlock_iff.1 hb
  obtain ⟨row', hrow', -⟩ := h.block b row hrow
  exact hasBlock_iff.2 ⟨row', hrow'⟩

theorem hasRegion (h : ctx.Evolves ctx₁) {r : RegionRef} (hr : ctx.HasRegion r) :
    ctx₁.HasRegion r := by
  obtain ⟨row, hrow⟩ := hasRegion_iff.1 hr
  exact hasRegion_iff.2 ⟨row, h.region r row hrow⟩

theorem trans (h₁ : ctx.Evolves ctx₁) (h₂ : ctx₁.Evolves ctx₂) : ctx.Evolves ctx₂ where
  op o row hrow := by
    obtain ⟨row₁, hrow₁, hfixed₁⟩ := h₁.op o row hrow
    obtain ⟨row₂, hrow₂, hfixed₂⟩ := h₂.op o row₁ hrow₁
    exact ⟨row₂, hrow₂, hfixed₂.trans hfixed₁⟩
  block b row hrow := by
    obtain ⟨row₁, hrow₁, hfixed₁⟩ := h₁.block b row hrow
    obtain ⟨row₂, hrow₂, hfixed₂⟩ := h₂.block b row₁ hrow₁
    exact ⟨row₂, hrow₂, hfixed₂.trans hfixed₁⟩
  region r row hrow := h₂.region r row (h₁.region r row hrow)
  value v row hrow := h₂.value v row (h₁.value v row hrow)
  erased o ho := h₂.erased o (h₁.erased o ho)
  held o ho hlive := (h₂.held o (h₁.hasOp ho) hlive).trans
    (h₁.held o ho fun he => hlive (h₂.erased o he))
  types := h₂.types.trans h₁.types
  paths := h₂.paths.trans h₁.paths

/-! ## Readings -/

section Readings

variable {α : Type} (h : ctx.Evolves ctx₁)

include h

theorem readOp {o : OpRef} (ho : ctx.HasOp o) (f : Operation → α) (default : α)
    (hf : ∀ row : Operation, f row.fixed = f row) :
    ctx₁.readOp f default o = ctx.readOp f default o := by
  obtain ⟨row, hrow⟩ := hasOp_iff.1 ho
  obtain ⟨row', hrow', hfixed⟩ := h.op o row hrow
  rw [readOp_of_op hrow, readOp_of_op hrow', ← hf row', hfixed, hf]

theorem readBlock {b : BlockRef} (hb : ctx.HasBlock b) (f : Block → α) (default : α)
    (hf : ∀ row : Block, f row.fixed = f row) :
    ctx₁.readBlock f default b = ctx.readBlock f default b := by
  obtain ⟨row, hrow⟩ := hasBlock_iff.1 hb
  obtain ⟨row', hrow', hfixed⟩ := h.block b row hrow
  rw [readBlock_of_block hrow, readBlock_of_block hrow', ← hf row', hfixed, hf]

theorem readRegion {r : RegionRef} (hr : ctx.HasRegion r) (f : Region → α) (default : α) :
    ctx₁.readRegion f default r = ctx.readRegion f default r := by
  obtain ⟨row, hrow⟩ := hasRegion_iff.1 hr
  rw [readRegion_of_region hrow, readRegion_of_region (h.region r row hrow)]

theorem results {o : OpRef} (ho : ctx.HasOp o) : ctx₁.results o = ctx.results o := by
  rw [results_eq_readOp, results_eq_readOp]
  exact h.readOp ho _ _ fun _ => rfl

theorem args {b : BlockRef} (hb : ctx.HasBlock b) : ctx₁.args b = ctx.args b := by
  rw [args_eq_readBlock, args_eq_readBlock]
  exact h.readBlock hb _ _ fun _ => rfl

theorem regionsOf {o : OpRef} (ho : ctx.HasOp o) : ctx₁.regionsOf o = ctx.regionsOf o :=
  h.readOp ho _ _ fun _ => rfl

theorem blocksOf {r : RegionRef} (hr : ctx.HasRegion r) : ctx₁.blocksOf r = ctx.blocksOf r :=
  h.readRegion hr _ _

theorem sourceOf {v : ValueRef} {source : ValueDef} (hv : ctx.sourceOf v = some source) :
    ctx₁.sourceOf v = some source := by
  rw [Context.sourceOf, Option.map_eq_some_iff] at hv ⊢
  obtain ⟨row, hrow, rfl⟩ := hv
  exact ⟨row, value_eq_ok.1 (h.value v row (value_eq_ok.2 hrow)), rfl⟩

/-- The operation that a block is directly in never changes. -/
theorem holder_eq (hc : ctx.Coherent) {b : BlockRef} (hb : ctx.HasBlock b) :
    ctx₁.holder b = ctx.holder b := by
  have hregion : ctx₁.regionOf b = ctx.regionOf b := h.readBlock hb _ _ fun _ => rfl
  rw [Context.holder, Context.holder, hregion]
  cases hr : ctx.regionOf b with
  | none => rfl
  | some r => exact h.readRegion (hc.hasRegion_of_regionOf hr) _ _

theorem holder (hc : ctx.Coherent) {b : BlockRef} {a : OpRef} (hb : ctx.holder b = some a) :
    ctx₁.holder b = some a := by
  obtain ⟨r, hr, -⟩ := Option.bind_eq_some_iff.1 hb
  rwa [h.holder_eq hc (hc.hasBlock_of_mem ((hc.blocks.owner_iff b r).1 hr))]

/-- An operation that is listed where it was is in the operation that it was in. -/
theorem above_eq (hc : ctx.Coherent) {p : OpRef} (hp : ctx₁.blockOf p = ctx.blockOf p) :
    ctx₁.above p = ctx.above p := by
  rw [above, above, hp]
  cases hb : ctx.blockOf p with
  | none => rfl
  | some b => exact h.holder_eq hc (hc.hasBlock_of_blockOf hb)

/-- What a value belongs to never changes, once there is something. -/
theorem definer (hc : ctx.Coherent) {v : ValueRef} {o : OpRef} (hv : ctx.definer v = some o) :
    ctx₁.definer v = some o := by
  rw [Context.definer] at hv ⊢
  split at hv
  · rename_i hsource
    rw [h.sourceOf hsource]
    exact hv
  · rename_i hsource
    rw [h.sourceOf hsource]
    exact h.holder hc hv
  · cases hv

theorem values_size : ctx.values.size ≤ ctx₁.values.size := by
  by_contra hlt
  obtain ⟨row, hrow⟩ : ∃ row, ctx.value ⟨ctx₁.values.size⟩ = .ok row :=
    ⟨_, value_eq_ok.2 (Array.getElem?_eq_getElem (Nat.not_le.1 hlt))⟩
  have := value_eq_ok.1 (h.value _ row hrow)
  rw [Array.getElem?_eq_none (Nat.le_refl _)] at this
  cases this

/-- A value that was there belongs to the same operation. -/
theorem definer_eq (hc : ctx.Coherent) {v : ValueRef} (hv : v.index < ctx.values.size) :
    ctx₁.definer v = ctx.definer v := by
  have hsource : ctx.sourceOf v = some ctx.values[v.index].source := by
    rw [Context.sourceOf, Array.getElem?_eq_getElem hv]
    rfl
  rw [Context.definer, Context.definer, hsource, h.sourceOf hsource]
  split
  · rfl
  · rename_i b n hb
    rw [← hsource] at hb
    have hmem : v ∈ ctx.args b := (mem_args_iff hc).2 ⟨n, hb⟩
    refine h.holder_eq hc ?_
    by_contra hn
    rw [args_eq_readBlock, readBlock_of_not_hasBlock hn] at hmem
    cases hmem
  · rfl

/-- An operation from before holds no other blocks. -/
theorem holder_old (hc : ctx.Coherent) (hc₁ : ctx₁.Coherent) {b : BlockRef} {a : OpRef}
    (ha : ctx.HasOp a) (hb : ctx₁.holder b = some a) : ctx.HasBlock b ∧ ctx.holder b = some a := by
  obtain ⟨r, hr, howner⟩ := Option.bind_eq_some_iff.1 hb
  have hmem := (hc₁.regions.owner_iff r a).1 howner
  rw [h.regionsOf ha] at hmem
  have hblock := (hc₁.blocks.owner_iff b r).1 hr
  rw [h.blocksOf (hc.hasRegion_of_mem hmem)] at hblock
  exact ⟨hc.hasBlock_of_mem hblock, hc.holder_of_mem hmem hblock⟩


/-- What an operation from before defines is from before. -/
theorem index_lt_of_definer (hc : ctx.Coherent) (hc₁ : ctx₁.Coherent) {v : ValueRef} {a : OpRef}
    (ha : ctx.HasOp a) (hv : ctx₁.definer v = some a) : v.index < ctx.values.size := by
  rw [Context.definer] at hv
  split at hv
  · rename_i p n hsource
    obtain rfl := Option.some.inj hv
    have hres := (hc₁.values.result_iff p n v).2 hsource
    rw [h.results ha] at hres
    exact index_lt_of_sourceOf ((hc.values.result_iff p n v).1 hres)
  · rename_i b n hsource
    have harg := (hc₁.values.argument_iff b n v).2 hsource
    rw [h.args (h.holder_old hc hc₁ ha hv).1] at harg
    exact index_lt_of_sourceOf ((hc.values.argument_iff b n v).1 harg)
  · cases hv

/-- What is in an operation from before is listed in a block from before. -/
theorem listed_of_above (hc : ctx.Coherent) (hc₁ : ctx₁.Coherent) {p a : OpRef}
    (ha : ctx.HasOp a) (habove : ctx₁.above p = some a) :
    ∃ b, ctx.HasBlock b ∧ ctx.holder b = some a ∧ p ∈ ctx₁.opsOf b := by
  obtain ⟨b, hb, hholder⟩ := Option.bind_eq_some_iff.1 habove
  obtain ⟨hex, hold⟩ := h.holder_old hc hc₁ ha hholder
  exact ⟨b, hex, hold, (hc₁.ops.owner_iff p b).1 hb⟩

/-- Where nothing has moved up and one operation alone has come in, namely into `o`, what is
    in an operation from before was in it before, or is in the new one. -/
theorem within_cases (hc : ctx.Coherent) (hc₁ : ctx₁.Coherent) {o c : OpRef}
    (habove : ∀ p, ctx.HasOp p → ∀ t, ctx₁.above p = some t → ctx.above p = some t)
    (hnew : ∀ b, ctx.HasBlock b → ∀ p ∈ ctx₁.opsOf b, ¬ctx.HasOp p →
      p = c ∧ ctx.holder b = some o) {p a : OpRef} (ha : ctx.HasOp a) (hw : ctx₁.Within p a) :
    ctx.HasOp p ∧ ctx.Within p a ∨ ¬ctx.HasOp p ∧ ctx₁.Within p c ∧ ctx.Within o a := by
  induction hw using Relation.ReflTransGen.head_induction_on with
  | refl => exact .inl ⟨ha, .refl a⟩
  | @head p t hstep _ ih =>
    by_cases hp : ctx.HasOp p
    · have habove' := habove p hp t hstep
      rcases ih with ⟨-, hw⟩ | ⟨ht, -⟩
      · exact .inl ⟨hp, (within_of_above habove').trans hw⟩
      · exact absurd (hc.hasOp_of_above habove').2 ht
    · rcases ih with ⟨ht, hw⟩ | ⟨ht, hwnew, hw⟩
      · obtain ⟨b, hb, hholder, hmem⟩ := h.listed_of_above hc hc₁ ht hstep
        obtain ⟨rfl, ho⟩ := hnew b hb p hmem hp
        obtain rfl := Option.some.inj (hholder.symm.trans ho)
        exact .inr ⟨hp, .refl p, hw⟩
      · exact .inr ⟨hp, (within_of_above hstep).trans hwnew, hw⟩

end Readings

/-- Scope is kept where an operation stays behind those that matter, in a block that
    stays where it is. -/
theorem inScope_of_split (h : ctx.Evolves ctx₁) (hs : ctx.Sound) (hs₁ : ctx₁.Sound)
    {b : BlockRef} {o : OpRef} {before after before' after' : List OpRef} {v : ValueRef}
    (hb : ctx.opsOf b = before ++ o :: after) (hv : ctx.InScope o v)
    (hb' : ctx₁.opsOf b = before' ++ o :: after')
    (hbefore : ∀ p ∈ before, v ∈ ctx.results p → p ∈ before')
    (habove : ∀ a, ctx.holder b = some a → ctx.InScope a v → ctx₁.InScope a v) :
    ctx₁.InScope o v := by
  have hc := hs.coherent
  refine (hs₁.coherent.inScope_iff hb').2 ?_
  rcases (hc.inScope_iff hb).1 hv with hv | ⟨p, hp, hv⟩ | ⟨a, ha, hv⟩
  · exact .inl (by
      rwa [h.args (hc.hasBlock_of_blockOf ((hc.ops.owner_iff o b).2 (by simp [hb])))])
  · refine .inr (.inl ⟨p, hbefore p hp hv, ?_⟩)
    rwa [h.results (hc.hasOp_of_mem (b := b) (by simp [hb, hp]))]
  · exact .inr (.inr ⟨a, h.holder hc ha, habove a ha hv⟩)

end Evolves

/-! ## Single changes -/

theorem InPlace.evolves (h : ctx.InPlace ctx₁) (herased : ∀ o, ctx.isErased o → ctx₁.isErased o)
    (hheld : ∀ o, ¬ctx₁.isErased o → (ctx₁.heldBy o).length = (ctx.heldBy o).length) :
    ctx.Evolves ctx₁ where
  op o row hrow := by
    have key : (ctx₁.ops[o.index]?.map Operation.fixed) = some row.fixed := by
      rw [← Array.getElem?_map, h.ops, Array.getElem?_map, op_eq_ok.1 hrow]
      rfl
    obtain ⟨row', hrow', hfixed⟩ := Option.map_eq_some_iff.1 key
    exact ⟨row', op_eq_ok.2 hrow', hfixed⟩
  block b row hrow := by
    have key : (ctx₁.blocks[b.index]?.map Block.fixed) = some row.fixed := by
      rw [← Array.getElem?_map, h.blocks, Array.getElem?_map, block_eq_ok.1 hrow]
      rfl
    obtain ⟨row', hrow', hfixed⟩ := Option.map_eq_some_iff.1 key
    exact ⟨row', block_eq_ok.2 hrow', hfixed⟩
  region r row hrow := region_eq_ok.2 (by rw [h.regions]; exact region_eq_ok.1 hrow)
  value v row hrow := value_eq_ok.2 (by rw [h.values]; exact value_eq_ok.1 hrow)
  erased := herased
  held o _ := hheld o
  types := h.types
  paths := h.paths

theorem Relisted.heldBy (h : ctx.Relisted ctx₁) : ctx₁.heldBy = ctx.heldBy := by
  funext o
  rw [heldBy_eq, heldBy_eq, h.erased, h.operands]

theorem Relisted.evolves (h : ctx.Relisted ctx₁) : ctx.Evolves ctx₁ :=
  h.inPlace.evolves (fun o ho => by rwa [h.erased]) fun o _ => by rw [h.heldBy]

theorem Marked.heldBy {tree : List OpRef} (h : ctx.Marked tree ctx₁) {o : OpRef}
    (ho : ¬ctx₁.isErased o) : ctx₁.heldBy o = ctx.heldBy o := by
  have hlive : ¬ctx.isErased o := fun he => ho ((h.erased o).2 (.inr he))
  rw [heldBy_eq, heldBy_eq, if_neg ho, if_neg hlive, h.operands]

theorem Extends.evolves (h : ctx.Extends ctx₁) (htypes : ctx₁.types = ctx.types)
    (hpaths : ctx₁.paths = ctx.paths) : ctx.Evolves ctx₁ where
  op o row hrow := ⟨row, h.op o row hrow, rfl⟩
  block b row hrow := ⟨row, h.block b row hrow, rfl⟩
  region := h.region
  value := h.value
  erased o ho := by
    rw [isErased_eq_readOp, h.readOp (hasOp_of_isErased ho), ← isErased_eq_readOp]
    exact ho
  held o ho _ := by rw [Context.heldBy, h.readOp ho]
  types := htypes
  paths := hpaths

end Offload.Context
