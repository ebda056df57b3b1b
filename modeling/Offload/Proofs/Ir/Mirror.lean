import Offload.Proofs.Ir.Copy
import Offload.Proofs.Ir.Evolution

/-!
# Inside copies

A copy stays one when the program around it changes, as long as its own blocks list
the same operations; if its operands are renamed, the renaming goes with the copy
(`CopyOf.evolve`). A copy of what has been kept from an earlier program is one of what was
there (`CopyOf.of_kept`). Whatever is nested in a copy mirrors something nested in the source,
and what is passed down along the source is passed down along the copy
(`CopyOf.exists_mirror`).

Cloning changes no way up from what was there before (`Cloned.above`).
-/

namespace Offload

open Context

variable {source ctx ctx' : Context} {top : OpRef} {σ σ' : ValueRef → ValueRef} {n : Nat}

/-! ## Copies in a changing program -/

/-- What changes around a copy does not touch it, but for its operands. They may be renamed,
    and what is named anew is not the copy's own. -/
structure Spares (source : Context) (σ σ' : ValueRef → ValueRef) (ctx ctx' : Context) : Prop where
  evolves : ctx.Evolves ctx'
  live : ∀ o, ¬source.HasOp o → ctx.HasOp o → ctx.isErased o = false → ctx'.isErased o = false
  opsOf : ∀ b, ¬source.HasBlock b → ctx.HasBlock b → ctx'.opsOf b = ctx.opsOf b
  operands : ∀ o, ¬source.HasOp o → ctx.HasOp o → ctx.isErased o = false → ∃ ρ : ValueRef → ValueRef,
    (∀ v, ρ (σ v) = σ' v) ∧ ctx'.operandsOf o = (ctx.operandsOf o).map ρ
  results : ∀ o, ¬source.HasOp o → ctx.HasOp o → ∀ v, σ v ∈ ctx.results o → σ' v = σ v
  args : ∀ b, ¬source.HasBlock b → ctx.HasBlock b → ∀ v, σ v ∈ ctx.args b → σ' v = σ v

/-- Where nothing is renamed but what copies have no part in. -/
theorem Spares.of_fixed (evolves : ctx.Evolves ctx')
    (live : ∀ o, ¬source.HasOp o → ctx.HasOp o → ctx.isErased o = false → ctx'.isErased o = false)
    (opsOf : ∀ b, ¬source.HasBlock b → ctx.HasBlock b → ctx'.opsOf b = ctx.opsOf b)
    (operands : ∀ o, ¬source.HasOp o → ctx.HasOp o → ctx.isErased o = false →
      ∃ ρ : ValueRef → ValueRef,
        (∀ v, ρ (σ v) = σ v) ∧ ctx'.operandsOf o = (ctx.operandsOf o).map ρ) :
    Spares source σ σ ctx ctx' :=
  ⟨evolves, live, opsOf, operands, fun _ _ _ _ _ => rfl, fun _ _ _ _ _ => rfl⟩

theorem map_eq_map_of_mem {l l' : List ValueRef} (hl : l' = l.map σ)
    (hv : ∀ v, σ v ∈ l' → σ' v = σ v) : l' = l.map σ' := by
  rw [hl]
  exact List.map_congr_left fun v hm => (hv v (hl ▸ List.mem_map_of_mem hm)).symm

theorem BlockCopy.evolve {copyOf copyOf' : OpRef → OpRef → Prop} (h : Spares source σ σ' ctx ctx')
    (hcopy : ∀ o o', copyOf o o' → copyOf' o o') {b b' : BlockRef}
    (hb : BlockCopy source σ ctx copyOf b b') : BlockCopy source σ' ctx' copyOf' b b' where
  isNew := hb.isNew
  hasBlock := h.evolves.hasBlock hb.hasBlock
  types := (h.evolves.readBlock hb.hasBlock _ _ fun _ => rfl).trans hb.types
  args := (h.evolves.args hb.hasBlock).trans
    (map_eq_map_of_mem hb.args (h.args b' hb.isNew hb.hasBlock))
  ops := by
    rw [h.opsOf b' hb.isNew hb.hasBlock]
    exact hb.ops.imp hcopy

theorem CopyOf.evolve (h : Spares source σ σ' ctx ctx') {o o' : OpRef}
    (hcopy : CopyOf source top σ ctx n o o') : CopyOf source top σ' ctx' n o o' := by
  induction n generalizing o o' with
  | zero => exact hcopy
  | succ n ih =>
    obtain ⟨hop, hregions⟩ := hcopy
    have hread {α : Type} (f : Operation → α) (default : α)
        (hf : ∀ row : Operation, f row.fixed = f row) :
        ctx'.readOp f default o' = ctx.readOp f default o' := h.evolves.readOp hop.hasOp f default hf
    obtain ⟨ρ, hρ, hoperands⟩ := h.operands o' hop.isNew hop.hasOp hop.live
    refine ⟨⟨hop.isNew, h.evolves.hasOp hop.hasOp, ?_, ?_, ?_, ?_, ?_, ?_, fun hall => ?_⟩, ?_⟩
    · exact (hread _ _ fun _ => rfl).trans hop.kind
    · exact (hread _ _ fun _ => rfl).trans hop.attributes
    · exact (hread _ _ fun _ => rfl).trans hop.types
    · exact (h.evolves.results hop.hasOp).trans
        (map_eq_map_of_mem hop.results (h.results o' hop.isNew hop.hasOp))
    · exact h.live o' hop.isNew hop.hasOp hop.live
    · rw [hoperands, List.length_map, hop.count]
    · rw [hoperands, hop.operands hall, List.map_map]
      exact List.map_congr_left fun v _ => hρ v
    · rw [h.evolves.regionsOf hop.hasOp]
      refine hregions.imp fun r r' hr => ⟨hr.isNew, h.evolves.hasRegion hr.hasRegion, ?_⟩
      rw [h.evolves.blocksOf hr.hasRegion]
      exact hr.blocks.imp fun b b' hb => hb.evolve h fun p p' hp => ih hp

/-- What is in an operation has been kept, but for the names of its operands, which have been
    mapped. -/
structure Retains (source : Context) (top : OpRef) (ρ : ValueRef → ValueRef) (later : Context) :
    Prop where
  evolves : source.Evolves later
  opsOf : ∀ b o, source.holder b = some o → source.Within o top → later.opsOf b = source.opsOf b
  operands : ∀ o, source.Within o top → later.operandsOf o = (source.operandsOf o).map ρ
  fixed : ∀ v, source.DefinedWithin top v → ρ v = v
  visible : ∀ o, source.Within o top → ∀ v ∈ later.operandsOf o, Visible later top o v

/-- A copy of what has been kept mirrors what was there. -/
theorem CopyOf.of_kept {later : Context} {ρ : ValueRef → ValueRef} (hsource : source.Coherent)
    (h : Retains source top ρ later) {o o' : OpRef} (ho : source.Within o top)
    (hex : source.HasOp o) (hcopy : CopyOf later top σ ctx n o o') :
    CopyOf source top (σ ∘ ρ) ctx n o o' := by
  induction n generalizing o o' with
  | zero => exact hcopy
  | succ n ih =>
    obtain ⟨hop, hregions⟩ := hcopy
    have hread {α : Type} (f : Operation → α) (default : α)
        (hf : ∀ row : Operation, f row.fixed = f row) :
        later.readOp f default o = source.readOp f default o := h.evolves.readOp hex f default hf
    have hvalues {l : List ValueRef} (hl : ∀ v ∈ l, source.DefinedWithin o v) :
        l.map σ = l.map (σ ∘ ρ) :=
      List.map_congr_left fun v hv => by
        obtain ⟨p, hp, hw⟩ := hl v hv
        rw [Function.comp_apply, h.fixed v ⟨p, hp, hw.trans ho⟩]
    rw [h.evolves.regionsOf hex] at hregions
    refine ⟨⟨fun hnew => hop.isNew (h.evolves.hasOp hnew), hop.hasOp,
      hop.kind.trans (hread _ _ fun _ => rfl), hop.attributes.trans (hread _ _ fun _ => rfl),
      hop.types.trans (hread _ _ fun _ => rfl), ?_, hop.live, ?_, fun _ => ?_⟩, ?_⟩
    · rw [hop.results, h.evolves.results hex]
      exact hvalues fun v hv => hsource.definedWithin_iff.2 (.inl hv)
    · rw [hop.count, h.operands o ho, List.length_map]
    · rw [hop.operands (h.visible o ho), h.operands o ho, List.map_map]
    · -- what is in the operation is looked at with the regions that hold it
      refine (Position.forall₂_mem hregions).imp fun r r' ⟨hr, _, hcopy⟩ => ?_
      have hblocks := hcopy.blocks
      rw [h.evolves.blocksOf (hsource.hasRegion_of_mem hr)] at hblocks
      refine ⟨fun hnew => hcopy.isNew (h.evolves.hasRegion hnew), hcopy.hasRegion,
        (Position.forall₂_mem hblocks).imp fun b b' ⟨hb, _, hcopy⟩ => ?_⟩
      have hholder := hsource.holder_of_mem hr hb
      have hblock := hsource.hasBlock_of_mem hb
      have hops := hcopy.ops
      rw [h.opsOf b o hholder ho] at hops
      refine ⟨fun hnew => hcopy.isNew (h.evolves.hasBlock hnew), hcopy.hasBlock,
        hcopy.types.trans (h.evolves.readBlock hblock _ _ fun _ => rfl), ?_,
        (Position.forall₂_mem hops).imp fun p p' ⟨hp, _, hcopy⟩ => ?_⟩
      · rw [hcopy.args, h.evolves.args hblock]
        exact hvalues fun v hv => hsource.definedWithin_iff.2
          (.inr ⟨r, hr, b, hb, .inl hv⟩)
      · exact ih ((within_of_above ((hsource.above_of_mem hp).trans hholder)).trans ho)
          (hsource.hasOp_of_mem hp) hcopy

theorem Context.Cloned.evolves {o copy : OpRef} {map map' : ValueMap}
    (h : ctx.Cloned o map ctx' map' copy) : ctx.Evolves ctx' := h.extends.evolves h.types h.paths

theorem Context.Cloned.blockOf {o copy p : OpRef} {map map' : ValueMap}
    (h : ctx.Cloned o map ctx' map' copy) (hp : ctx.HasOp p) :
    ctx'.blockOf p = ctx.blockOf p := h.extends.readOp hp _ _

/-- Cloning changes no way up. -/
theorem Context.Cloned.above {o copy p : OpRef} {map map' : ValueMap}
    (h : ctx.Cloned o map ctx' map' copy) (hc : ctx.Coherent) (hp : ctx.HasOp p) :
    ctx'.above p = ctx.above p := by
  rw [Context.above, Context.above, h.blockOf hp]
  cases hb : ctx.blockOf p with
  | none => rfl
  | some b => exact h.evolves.holder_eq hc (hc.hasBlock_of_blockOf hb)

/-! ## What is nested in a copy -/

theorem CopyOf.opCopy {o o' : OpRef} (h : CopyOf source top σ ctx n o o') :
    OpCopy source top σ ctx o o' := by
  cases n with
  | zero => exact h.elim
  | succ n => exact h.1

/-- What is directly in a copy mirrors what is directly in the operation. -/
theorem CopyOf.children {o o' : OpRef} (h : CopyOf source top σ ctx (n + 1) o o') :
    List.Forall₂ (CopyOf source top σ ctx n) (source.childrenOf o) (ctx.childrenOf o') :=
  List.rel_flatMap h.2 fun _ _ hr => List.rel_flatMap hr.blocks fun _ _ hb => hb.ops

/-- Two operations at the same place of two trees. -/
inductive Twin (source ctx : Context) (top top' : OpRef) : OpRef → OpRef → Prop
  | top : Twin source ctx top top' top top'
  | inside {y y' z z' : OpRef} {r r' : RegionRef} {b b' : BlockRef}
      (above : Twin source ctx top top' y y')
      (region : Position.Matched (source.regionsOf y) (ctx.regionsOf y') r r')
      (block : Position.Matched (source.blocksOf r) (ctx.blocksOf r') b b')
      (op : Position.Matched (source.opsOf b) (ctx.opsOf b') z z') : Twin source ctx top top' z z'

namespace Twin

variable {top' y y' z z' : OpRef}

theorem symm (h : Twin source ctx top top' z z') : Twin ctx source top' top z' z := by
  induction h with
  | top => exact .top
  | inside _ hr hb ho ih => exact ih.inside hr.symm hb.symm ho.symm

theorem within (hc : source.Coherent) (h : Twin source ctx top top' z z') :
    source.Within z top := by
  induction h with
  | top => exact .refl top
  | inside _ hr hb ho ih =>
    exact (within_of_above ((hc.above_of_mem ho.mem.1).trans
      (hc.holder_of_mem hr.mem.1 hb.mem.1))).trans ih

/-- One tree has nothing twice at the place of something in the other. -/
theorem unique (hctx : ctx.Sound) (hy : Twin source ctx top top' y z')
    (hz : Twin source ctx top top' z z') : y = z := by
  have hc := hctx.coherent
  -- nothing in the tree holds the top of it
  have hroot {t t' : OpRef} {r' : RegionRef} {b' : BlockRef} (ht : Twin source ctx top top' t t')
      (hr : r' ∈ ctx.regionsOf t') (hb : b' ∈ ctx.blocksOf r') (ho : top' ∈ ctx.opsOf b') :
      False :=
    hctx.grounded.not_within_above ((hc.above_of_mem ho).trans (hc.holder_of_mem hr hb))
      (ht.symm.within hc)
  induction hy generalizing z with
  | top =>
    cases hz with
    | top => rfl
    | inside ht hr hb ho => exact (hroot ht hr.mem.2 hb.mem.2 ho.mem.2).elim
  | inside ht hr hb ho ih =>
    cases hz with
    | top => exact (hroot ht hr.mem.2 hb.mem.2 ho.mem.2).elim
    | inside ht₁ hr₁ hb₁ ho₁ =>
      obtain rfl := hc.ops.owner_unique ho.mem.2 ho₁.mem.2
      obtain rfl := hc.blocks.owner_unique hb.mem.2 hb₁.mem.2
      obtain rfl := hc.regions.owner_unique hr.mem.2 hr₁.mem.2
      obtain rfl := ih ht₁
      obtain rfl := hr.unique hr₁ (hc.regions.nodup _)
      obtain rfl := hb.unique hb₁ (hc.blocks.nodup _)
      exact ho.unique ho₁ (hc.ops.nodup _)

theorem within_of_within (hs : source.Sound) (hctx : ctx.Sound)
    (hy : Twin source ctx top top' y y') (hz : Twin source ctx top top' z z')
    (hw : source.Within z y) : ctx.Within z' y' := by
  have hc := hs.coherent
  have heq {x x' x'' : OpRef} (hx : Twin source ctx top top' x x')
      (hx' : Twin source ctx top top' x x'') : x' = x'' := hx.symm.unique hs hx'.symm
  induction hz with
  | top =>
    obtain rfl := hs.grounded.antisymm hw (hy.within hc)
    exact heq hy .top ▸ .refl _
  | inside ht hr hb ho ih =>
    have habove := (hc.above_of_mem ho.mem.1).trans (hc.holder_of_mem hr.mem.1 hb.mem.1)
    have habove' := (hctx.coherent.above_of_mem ho.mem.2).trans
      (hctx.coherent.holder_of_mem hr.mem.2 hb.mem.2)
    rcases within_iff_above.1 hw with rfl | ⟨t, ht', hw⟩
    · exact heq hy (ht.inside hr hb ho) ▸ .refl _
    · obtain rfl := Option.some.inj (habove.symm.trans ht')
      exact (within_of_above habove').trans (ih hw)

theorem within_iff (hs : source.Sound) (hctx : ctx.Sound) (hy : Twin source ctx top top' y y')
    (hz : Twin source ctx top top' z z') : source.Within z y ↔ ctx.Within z' y' :=
  ⟨hy.within_of_within hs hctx hz, hy.symm.within_of_within hctx hs hz.symm⟩

end Twin

/-- Two operations directly in a copy and in what it mirrors, at the same place. -/
structure Beside (source : Context) (top : OpRef) (σ : ValueRef → ValueRef) (ctx : Context)
    (n : Nat) (y y' z z' : OpRef) : Prop where
  copyOf : CopyOf source top σ ctx n z z'
  twin : ∀ t t', Twin source ctx t t' y y' → Twin source ctx t t' z z'
  place : ∃ b b' before before' after after', source.holder b = some y ∧
    ctx.holder b' = some y' ∧ source.opsOf b = before ++ z :: after ∧
    ctx.opsOf b' = before' ++ z' :: after' ∧
    ctx.args b' = (source.args b).map σ ∧
    List.Forall₂ (CopyOf source top σ ctx n) before before' ∧
    List.Forall₂ (CopyOf source top σ ctx n) after after'

/-- What is directly in a copy has something beside it. -/
theorem CopyOf.exists_beside (hsource : source.Coherent) (hctx : ctx.Coherent) {y y' z' : OpRef}
    (h : CopyOf source top σ ctx (n + 1) y y') (hz : ctx.above z' = some y') :
    ∃ z, Beside source top σ ctx n y y' z z' := by
  obtain ⟨b', r', hb', hr', hy'⟩ := above_eq_some_iff.1 hz
  have hholder : ctx.holder b' = some y' := Option.bind_eq_some_iff.2 ⟨r', hr', hy'⟩
  obtain ⟨r, hr, hregion⟩ :=
    Position.Matched.of_forall₂ h.2 ((hctx.regions.owner_iff r' y').1 hy')
  obtain ⟨b, hb, hblock⟩ :=
    Position.Matched.of_forall₂ hregion.blocks ((hctx.blocks.owner_iff b' r').1 hr')
  obtain ⟨before', after', hops'⟩ := List.append_of_mem ((hctx.ops.owner_iff z' b').1 hb')
  obtain ⟨before, z, after, hops, hbefore, hz, hafter⟩ :=
    Position.exists_split_of_forall₂ (hops' ▸ hblock.ops)
  have hmatched : Position.Matched (source.opsOf b) (ctx.opsOf b') z z' := by
    rw [hops, hops']
    exact .of_append hbefore.length_eq
  exact ⟨z, hz, fun t t' ht => ht.inside hr hb hmatched, b, b', before, before', after, after',
    hsource.holder_of_mem hr.mem.1 hb.mem.1, hholder, hops, hops', hblock.args, hbefore, hafter⟩

/-- What is passed down along the source is passed down along the copy. -/
theorem CopyOf.exists_mirror (hsource : source.Coherent) (hctx : ctx.Coherent)
    {P : OpRef → OpRef → Prop} {o o' : OpRef} (h : CopyOf source top σ ctx n o o') (hP : P o o')
    (hstep : ∀ m y y' z z', source.Within y o → P y y' → OpCopy source top σ ctx y y' →
      Beside source top σ ctx m y y' z z' → P z z') {z' : OpRef} (hz : ctx.Within z' o') :
    ∃ m z, source.Within z o ∧ CopyOf source top σ ctx (m + 1) z z' ∧ P z z' := by
  induction hz using Relation.ReflTransGen.head_induction_on with
  | refl =>
    cases n with
    | zero => exact h.elim
    | succ n => exact ⟨n, o, .refl o, h, hP⟩
  | @head z' y' hz' _ ih =>
    obtain ⟨m, y, hy, hcopy, hPy⟩ := ih
    obtain ⟨z, hbeside⟩ := CopyOf.exists_beside hsource hctx hcopy hz'
    obtain ⟨b, b', before, before', after, after', hb, -, hops, -⟩ := hbeside.place
    have habove : source.above z = some y :=
      (hsource.above_of_mem (by simp [hops])).trans hb
    cases m with
    | zero => exact hbeside.copyOf.elim
    | succ m =>
      exact ⟨m, z, (within_of_above habove).trans hy, hbeside.copyOf,
        hstep _ y y' z z' hy hPy hcopy.1 hbeside⟩

/-- What is defined in a copy mirrors what is defined in the operation. -/
theorem CopyOf.definedWithin_iff (hsource : source.Coherent) (hctx : ctx.Coherent) {o o' : OpRef}
    (h : CopyOf source top σ ctx n o o') {w : ValueRef} :
    ctx.DefinedWithin o' w ↔ ∃ v, source.DefinedWithin o v ∧ σ v = w := by
  induction n generalizing o o' with
  | zero => exact h.elim
  | succ n ih =>
    obtain ⟨hop, hregions⟩ := h
    rw [hctx.definedWithin_iff]
    constructor
    · rintro (hw | ⟨r', hr', b', hb', hw⟩)
      · rw [hop.results] at hw
        obtain ⟨v, hv, hvw⟩ := List.mem_map.1 hw
        exact ⟨v, hsource.definedWithin_iff.2 (.inl hv), hvw⟩
      obtain ⟨r, hr, hregion⟩ := Outcome.exists_of_mem_right hregions hr'
      obtain ⟨b, hb, hblock⟩ := Outcome.exists_of_mem_right hregion.blocks hb'
      rcases hw with hw | ⟨p', hp', hw⟩
      · rw [hblock.args] at hw
        obtain ⟨v, hv, hvw⟩ := List.mem_map.1 hw
        exact ⟨v, hsource.definedWithin_iff.2 (.inr ⟨r, hr, b, hb, .inl hv⟩), hvw⟩
      · obtain ⟨p, hp, hcopy⟩ := Outcome.exists_of_mem_right hblock.ops hp'
        obtain ⟨v, hv, hvw⟩ := (ih hcopy).1 hw
        exact ⟨v, hsource.definedWithin_iff.2 (.inr ⟨r, hr, b, hb, .inr ⟨p, hp, hv⟩⟩), hvw⟩
    · rintro ⟨v, hv, rfl⟩
      rcases hsource.definedWithin_iff.1 hv with hv | ⟨r, hr, b, hb, hv⟩
      · exact .inl (hop.results ▸ List.mem_map_of_mem hv)
      obtain ⟨r', hr', hregion⟩ := Outcome.exists_of_mem_left hregions hr
      obtain ⟨b', hb', hblock⟩ := Outcome.exists_of_mem_left hregion.blocks hb
      refine .inr ⟨r', hr', b', hb', ?_⟩
      rcases hv with hv | ⟨p, hp, hv⟩
      · exact .inl (hblock.args ▸ List.mem_map_of_mem hv)
      · obtain ⟨p', hp', hcopy⟩ := Outcome.exists_of_mem_left hblock.ops hp
        exact .inr ⟨p', hp', (ih hcopy).2 ⟨v, hv, rfl⟩⟩

end Offload
