import Offload.Proofs.Pattern.Editor

/-!
# When edits succeed

In a coherent context the steps of an editor fault only for reasons that can be read off
the program: an operation is not there, or has no place; a value to be erased is in use.
Whether a copy can be made is not in question, as long as no way up is endless
(`Sound.cloneOp_ok`).
-/

namespace Offload

open Context

/-! ## Copies -/

namespace Clone

variable {α β : Type} {source : Context}

/-- The rows of the source are still there. -/
def Intact (source : Context) (s : Cloning) : Prop := source.Extends s.context

/-- A step of copying succeeds, leaves the source as it is, and makes something with a
    property. -/
def Makes (source : Context) (made : β → Prop) (x : CloneM β) : Prop :=
  ∀ s, Intact source s → ∃ y s', x.run s = .ok (y, s') ∧ Intact source s' ∧ made y

theorem Makes.mapM {made : β → Prop} {f : α → CloneM β} {xs : List α}
    (hf : ∀ x ∈ xs, Makes source made (f x)) :
    Makes source (fun ys => ∀ y ∈ ys, made y) (xs.mapM f) := by
  induction xs with
  | nil =>
    intro s hs
    exact ⟨[], s, rfl, hs, by simp⟩
  | cons x xs ih =>
    intro s hs
    obtain ⟨y, s₁, hy, hs₁, hmade⟩ := hf x List.mem_cons_self s hs
    obtain ⟨ys, s₂, hys, hs₂, hmade'⟩ := ih (fun z hz => hf z (List.mem_cons_of_mem x hz)) s₁ hs₁
    refine ⟨y :: ys, s₂, ?_, hs₂, List.forall_mem_cons.2 ⟨hmade, hmade'⟩⟩
    rw [List.mapM_cons, StateT.run_bind, hy, Outcome.ok_bind, StateT.run_bind, hys, Outcome.ok_bind]
    rfl

/-- The loop that fills the copy of a block. -/
theorem fill_ok {op : OpRef → CloneM OpRef} {copy : BlockRef} (hcopy : ¬source.HasBlock copy)
    {os : List OpRef} (hop : ∀ o ∈ os, Makes source (fun o' => ¬source.HasOp o') (op o))
    {s : Cloning} (hs : Intact source s) :
    ∃ s', (forIn os PUnit.unit fun o _ => do
        let o' ← op o
        onContext fun ctx => (ctx.append copy o', ())
        pure (ForInStep.yield PUnit.unit) : CloneM PUnit).run s = .ok (PUnit.unit, s') ∧
      Intact source s' := by
  induction os generalizing s with
  | nil => exact ⟨s, rfl, hs⟩
  | cons o os ih =>
    obtain ⟨o', s₁, ho, hs₁, hnew⟩ := hop o List.mem_cons_self s hs
    obtain ⟨s₂, hrest, hs₂⟩ := @ih (fun p hp => hop p (List.mem_cons_of_mem o hp))
      { s₁ with context := s₁.context.append copy o' } (Extends.append hs₁ hcopy hnew)
    refine ⟨s₂, ?_, hs₂⟩
    rw [List.forIn_cons, StateT.run_bind, StateT.run_bind, ho, Outcome.ok_bind]
    exact hrest

theorem block_ok {op : OpRef → CloneM OpRef} {b : BlockRef} (hb : source.HasBlock b)
    (hop : ∀ o ∈ source.opsOf b, Makes source (fun o' => ¬source.HasOp o') (op o)) :
    Makes source (fun b' => ¬source.HasBlock b') (block op b) := by
  intro s hs
  obtain ⟨row, hrow⟩ := hasBlock_iff.1 hb
  have hops : source.opsOf b = row.ops := readBlock_of_block hrow _ _
  have hnew : ¬source.HasBlock ⟨s.context.blocks.size⟩ := fun h =>
    not_hasBlock_size (Extends.hasBlock hs h)
  let s₁ : Cloning :=
    { context := (s.context.addBlock row.location row.argTypes []).1
      map := s.map.insertAll row.args
        ((s.context.addBlock row.location row.argTypes []).1.args ⟨s.context.blocks.size⟩) }
  obtain ⟨s₂, hloop, hs₂⟩ := fill_ok hnew (hops ▸ hop) (s := s₁) (Extends.trans hs extends_addBlock)
  refine ⟨⟨s.context.blocks.size⟩, s₂, ?_, hs₂, hnew⟩
  simp only [block, StateT.run_bind, StateT.run_get, pure_bind, Extends.block hs b row hrow]
  exact congrArg (· >>= fun p : PUnit × Cloning => pure (_, p.2)) hloop

theorem region_ok {op : OpRef → CloneM OpRef} {r : RegionRef} (hr : source.HasRegion r)
    (hop : ∀ b ∈ source.blocksOf r, Makes source (fun b' => ¬source.HasBlock b') (block op b)) :
    Makes source (fun r' => ¬source.HasRegion r') (region op r) := by
  intro s hs
  obtain ⟨row, hrow⟩ := hasRegion_iff.1 hr
  have hblocks : source.blocksOf r = row.blocks := readRegion_of_region hrow _ _
  obtain ⟨bs, s₁, hbs, hs₁, hnew⟩ := Makes.mapM (hblocks ▸ hop) s hs
  refine ⟨⟨s₁.context.regions.size⟩,
    { s₁ with context := (s₁.context.addRegion row.location bs).1 }, ?_,
    Extends.addRegion hs₁ hnew, fun h => not_hasRegion_size (Extends.hasRegion hs₁ h)⟩
  simp only [region, StateT.run_bind, StateT.run_get, pure_bind, Extends.region hs r row hrow]
  exact Outcome.bind_eq_ok.2 ⟨(row, s), rfl, Outcome.bind_eq_ok.2 ⟨_, hbs, rfl⟩⟩

/-- Operations that are nested less deep than there are levels left are copied. -/
theorem opWithin_ok (hc : source.Coherent) {depth : OpRef → Nat}
    (hdepth : ∀ o p, source.above o = some p → depth p < depth o)
    (hsize : ∀ o, source.HasOp o → depth o < source.ops.size) {n : Nat} {o : OpRef}
    (ho : source.HasOp o) (hn : source.ops.size ≤ depth o + n) :
    Makes source (fun o' => ¬source.HasOp o') (opWithin n o) := by
  induction n generalizing o with
  | zero =>
    have := hsize o ho
    omega
  | succ n ih =>
    intro s hs
    obtain ⟨row, hrow⟩ := hasOp_iff.1 ho
    have hregions : source.regionsOf o = row.regions := readOp_of_op hrow _ _
    have hmakes : ∀ r ∈ row.regions, Makes source (fun r' => ¬source.HasRegion r')
        (region (opWithin n) r) := by
      intro r hr
      rw [← hregions] at hr
      refine region_ok (hc.hasRegion_of_mem hr) fun b hb => ?_
      refine block_ok (hc.hasBlock_of_mem hb) fun p hp => ?_
      have habove : source.above p = some o := (hc.above_of_mem hp).trans
        (Option.bind_eq_some_iff.2 ⟨r, (hc.blocks.owner_iff b r).2 hb, (hc.regions.owner_iff r o).2 hr⟩)
      have := hdepth p o habove
      exact ih (hc.hasOp_of_mem hp) (by omega)
    obtain ⟨rs, s₁, hrs, hs₁, hnew⟩ := Makes.mapM hmakes s hs
    let copy := blueprint row (row.operands.map s.map.apply) rs
    have hsize' : (s₁.context.addOp copy).2 = ⟨s₁.context.ops.size⟩ := addOp_snd
    refine ⟨⟨s₁.context.ops.size⟩,
      { context := (s₁.context.addOp copy).1
        map := s₁.map.insertAll row.results
          ((s₁.context.addOp copy).1.results ⟨s₁.context.ops.size⟩) }, ?_,
      Extends.addOp hs₁ hnew, fun h => not_hasOp_size (Extends.hasOp hs₁ h)⟩
    simp only [opWithin, StateT.run_bind, StateT.run_get, pure_bind, Extends.op hs o row hrow]
    exact Outcome.bind_eq_ok.2 ⟨(row, s), rfl, Outcome.bind_eq_ok.2 ⟨_, hrs, rfl⟩⟩

end Clone

namespace Context

variable {ctx : Context} {o anchor : OpRef} {b : BlockRef}

/-- Every operation of a sound context can be copied. -/
theorem Sound.cloneOp_ok (h : ctx.Sound) (ho : ctx.HasOp o) (map : ValueMap) :
    ∃ ctx' map' copy, ctx.cloneOp o map = .ok (ctx', map', copy) := by
  obtain ⟨depth, hdepth, hsize⟩ := h.grounded.exists_depth h.coherent
  obtain ⟨copy, s, hrun, -, -⟩ := Clone.opWithin_ok h.coherent hdepth hsize
    (n := ctx.ops.size + 1) ho (by omega) ⟨ctx, map⟩ (.refl ctx)
  exact ⟨s.context, s.map, copy, by rw [cloneOp, hrun]; rfl⟩

/-! ## Places -/

/-- An operation can be moved before another one that is in a block. -/
theorem Coherent.moveOpBefore_ok (h : ctx.Coherent) (ho : ctx.HasOp o) (hne : o ≠ anchor)
    (hanchor : anchor ∈ ctx.opsOf b) : ∃ ctx', ctx.moveOpBefore o anchor = .ok ctx' := by
  have hparent : ctx.blockOf anchor = some b := (h.ops.owner_iff anchor b).2 hanchor
  obtain ⟨row, hrow⟩ := hasOp_iff.1 (h.hasOp_of_mem hanchor)
  have hrow' : row.parent = some b := (readOp_of_op hrow _ _).symm.trans hparent
  have hmem : anchor ∈ (ctx.detached o).opsOf b := by
    rw [h.opsOf_detached]
    exact List.mem_filter.2 ⟨hanchor, by simpa using hne.symm⟩
  obtain ⟨position, hposition⟩ :=
    Option.isSome_iff_exists.1 (List.isSome_idxOf?.2 hmem)
  obtain ⟨before, after, hops, -, hlength⟩ := Position.idxOf?_eq_some_iff.1 hposition
  have hinsert : (ctx.detached o).insertOpAt b position o = .ok _ := insertOpAt_eq_ok.2
    ⟨relisted_detached.inPlace.hasOp.2 ho,
      relisted_detached.inPlace.hasBlock.2 (h.hasBlock_of_blockOf hparent),
      (h.blockOf_detached o).trans (if_pos rfl), by simp [hops, ← hlength], rfl⟩
  refine ⟨(ctx.detached o).relist o (some b) b (·.insertIdx position o), ?_⟩
  rw [moveOpBefore, hrow, Outcome.ok_bind]
  simp only [hrow', h.detachOp_ok ho, Outcome.ok_bind]
  exact insertOpBefore_eq_ok.2 ⟨position, hposition, hinsert⟩

theorem terminator?_ok (hb : ctx.HasBlock b) :
    ctx.terminator? b = .ok (ctx.opsOf b).getLast? := by
  obtain ⟨row, hrow⟩ := hasBlock_iff.1 hb
  rw [terminator?, hrow, opsOf, readBlock_of_block hrow]
  rfl

end Context

namespace Editor

variable {e : Editor} {o anchor : OpRef} {b : BlockRef} {os : List OpRef}

/-- What an editor has noted as touched is there. -/
def Recorded (e : Editor) : Prop := ∀ o ∈ e.touched, e.context.HasOp o

theorem Recorded.withContext (h : e.Recorded) {ctx : Context}
    (hctx : ∀ p, e.context.HasOp p → ctx.HasOp p) : (e.withContext ctx).Recorded :=
  fun p hp => hctx p (h p hp)

theorem Recorded.touch (h : e.Recorded) (ho : e.context.HasOp o) : (e.touch o).Recorded := by
  rw [Recorded, context_touch, Editor.touch]
  split
  · exact h
  · intro p hp
    rcases List.mem_append.1 hp with hp | hp
    · exact h p hp
    · rwa [List.mem_singleton.1 hp]

theorem Recorded.touchAll (h : e.Recorded) (hos : ∀ o ∈ os, e.context.HasOp o) :
    (e.touchAll os).Recorded := by
  induction os generalizing e with
  | nil => exact h
  | cons o os ih =>
    refine ih (h.touch (hos o List.mem_cons_self)) fun p hp => ?_
    rw [context_touch]
    exact hos p (List.mem_cons_of_mem o hp)

/-- An editor that has put an operation somewhere. -/
theorem Recorded.put (h : e.Recorded) {ctx : Context} {l : List OpRef}
    (hput : e.context.Put o b l ctx) : ((e.withContext ctx).touch o).Recorded :=
  (h.withContext fun _ hp => hput.relisted.inPlace.hasOp.2 hp).touch
    (hput.relisted.inPlace.hasOp.2 hput.hasOp)

/-! ## Movement -/

theorem moveOpBefore_ok (h : e.context.Coherent) (ho : e.context.HasOp o) (hne : o ≠ anchor)
    (hanchor : anchor ∈ e.context.opsOf b) :
    ∃ e', e.moveOpBefore o anchor = .ok e' ∧ (e.Recorded → e'.Recorded) := by
  obtain ⟨ctx, hmove⟩ := h.moveOpBefore_ok ho hne hanchor
  obtain ⟨_, _, _, -, -, -, hput⟩ := moveOpBefore_put h hmove
  exact ⟨_, by rw [moveOpBefore, insertOpBefore, hmove]; rfl, fun hrec => hrec.put hput⟩

theorem Recorded.collected (h : e.Recorded) {ctx : Context} {l : List OpRef}
    (hos : ∀ o ∈ os, e.context.HasOp o) (hcollected : e.context.Collected os b l ctx) :
    ((e.touchAll os).withContext ctx).Recorded := by
  refine (h.touchAll hos).withContext fun p hp => ?_
  rw [context_touchAll] at hp
  exact hcollected.relisted.inPlace.hasOp.2 hp

section Gathered

variable (h : e.context.Sound) (hb : e.context.HasBlock b) (hos : ∀ o ∈ os, e.context.HasOp o)
  (hnodup : os.Nodup) (hnew : ∀ o ∈ os, o ∉ e.context.opsOf b)
  (hout : ∀ t, e.context.holder b = some t → ∀ o ∈ os, ¬e.context.Within t o)

include h hb hos hnodup hnew hout

/-- Operations are put before what is in a block, which is in none of them. -/
theorem moveOpsToStart_gathered : ∃ e', e.moveOpsToStart os b = .ok e' ∧
    (e.Recorded → e'.Recorded) ∧
      e.context.Gathered os b (os ++ e.context.opsOf b) e'.context := by
  obtain ⟨ctx', hrun, hcollected⟩ := moveOpsTo_collected h.coherent hb hos hnodup
    (show _ = [] ++ e.context.opsOf b from rfl) fun _ _ => List.not_mem_nil
  rw [filter_not_mem_self hnew] at hcollected
  exact ⟨_, hrun, fun hrec => hrec.collected hos hcollected, hcollected.gathered h hout⟩

theorem moveOpsToEnd_gathered : ∃ e', e.moveOpsToEnd os b = .ok e' ∧
    (e.Recorded → e'.Recorded) ∧
      e.context.Gathered os b (e.context.opsOf b ++ os) e'.context := by
  obtain ⟨ctx', hrun, hcollected⟩ := moveOpsToEnd_collected h.coherent hb hos hnodup
  rw [filter_not_mem_self hnew] at hcollected
  exact ⟨_, hrun, fun hrec => hrec.collected hos hcollected, hcollected.gathered h hout⟩

end Gathered

/-! ## Erasure and replacement -/

/-- An operation can be erased if no result in it is used outside it. -/
theorem eraseOp_ok (h : e.context.Sound) (ho : e.context.HasOp o)
    (hunused : ∀ p, e.context.Within p o → ∀ v ∈ e.context.results p,
      ∀ q, v ∈ e.context.heldBy q → e.context.Within q o) :
    ∃ e', e.eraseOp o = .ok e' ∧ (e.Recorded → e'.Recorded) := by
  have hc := h.coherent
  have hdet : e.context.Relisted (e.context.detached o) := relisted_detached
  have hsound := h.detached o
  have hex : (e.context.detached o).HasOp o := hdet.inPlace.hasOp.2 ho
  obtain ⟨tree, htree⟩ := hsound.grounded.subtree_ok hsound.coherent hex
  have hmem (p : OpRef) : p ∈ tree ↔ e.context.Within p o :=
    (hsound.coherent.mem_subtree_iff htree).trans hc.within_detached
  obtain ⟨ctx, herase⟩ := hsound.coherent.eraseOp_ok hex ((hc.blockOf_detached o).trans (if_pos rfl))
    htree (fun p hp => hdet.inPlace.hasOp.2 (hc.hasOp_of_within' ((hmem p).1 hp) ho))
    (fun p hp v hv u hu => (hmem _).2 (hunused p ((hmem p).1 hp) v (by rwa [← hdet.inPlace.results])
      u.user (List.mem_of_getElem? ((hc.uses.mem_iff v u).1 (by rwa [← hdet.uses])))))
  have herasure := h.erasure (hc.detachOp_ok ho) herase
  -- the editor has noted the operation above, if any
  have key {e₁ : Editor} (he : e₁.context = e.context) (hrec₁ : e.Recorded → e₁.Recorded) :
      ∃ e', ((do
        let context ← (← e₁.context.detachOp o).eraseOp o
        return { context, touched := e₁.touched.filter (· ≠ o), erased := e₁.erased ++ [o] } :
          Except Fault Editor)) = .ok e' ∧ (e.Recorded → e'.Recorded) := by
    refine ⟨⟨ctx, e₁.touched.filter (· ≠ o), e₁.erased ++ [o]⟩, ?_, fun hrec p hp => ?_⟩
    · rw [he, hc.detachOp_ok ho, Outcome.ok_bind, herase]
      rfl
    · exact herasure.inPlace.hasOp.2 (he ▸ hrec₁ hrec p (List.mem_filter.1 hp).1)
  rw [eraseOp, hc.parentOp_ok ho, Outcome.ok_bind]
  cases habove : e.context.above o with
  | none => exact key rfl id
  | some p => exact key context_touch fun hrec => hrec.touch (hc.hasOp_of_above habove).2

theorem replaceValues_ok (h : e.context.Coherent) (pairs : List (ValueRef × ValueRef)) :
    ∃ e', replaceValues e pairs = .ok e' ∧ (e.Recorded → e'.Recorded) := by
  induction pairs generalizing e with
  | nil => exact ⟨e, rfl, id⟩
  | cons pair pairs ih =>
    obtain ⟨old, new⟩ := pair
    obtain ⟨ctx, hrun, hc, hin⟩ : ∃ ctx, e.context.replaceAllUses old new = .ok ctx ∧ ctx.Coherent ∧
        ∀ p, e.context.HasOp p → ctx.HasOp p := by
      by_cases hne : old = new
      · exact ⟨e.context, by rw [Context.replaceAllUses, if_pos hne]; rfl, h, fun _ hp => hp⟩
      · obtain ⟨ctx, hrun, hw⟩ := h.replaceAllUses hne
        exact ⟨ctx, hrun, hw.coherent h hne, fun _ hp => hw.inPlace.hasOp.2 hp⟩
    obtain ⟨e', hrest, hrec'⟩ :=
      @ih ((e.withContext ctx).touchAll ((e.context.uses.get old).map Use.user))
        (by rw [context_touchAll]; exact hc)
    refine ⟨e', by rw [replaceValues, hrun]; exact hrest, fun hrec => hrec' ?_⟩
    refine (hrec.withContext hin).touchAll fun p hp => ?_
    obtain ⟨u, hu, rfl⟩ := List.mem_map.1 hp
    exact hin _ (h.hasOp_of_use hu)

theorem cloneOpAtStart_ok (h : e.context.Sound) (ho : e.context.HasOp o)
    (hb : e.context.HasBlock b) :
    ∃ e' copy, e.cloneOpAtStart o b = .ok (e', copy) ∧ (e.Recorded → e'.Recorded) := by
  obtain ⟨ctx₁, map, copy, hclone⟩ := h.cloneOp_ok ho .empty
  obtain ⟨-, hcloned⟩ := h.cloneOp_spec hclone
  have hinsert : ctx₁.insertOpAt b 0 copy = .ok _ := insertOpAt_eq_ok.2
    ⟨hcloned.hasOp, hcloned.extends.hasBlock hb, hcloned.free, Nat.zero_le _, rfl⟩
  refine ⟨_, copy, ?_, fun hrec => Recorded.put (hrec.withContext fun _ hp => hcloned.extends.hasOp hp)
    (insertOpAt_put hcloned.sound.coherent hinsert)⟩
  simp only [cloneOpAtStart, hclone, Outcome.ok_bind, insertOpAtStart]
  rw [show (e.withContext ctx₁).context = ctx₁ from rfl, hinsert]
  rfl

/-- The last operation of a block can be replaced by a detached one, if no result in it is
    used outside it. -/
theorem replaceTerminator_ok (h : e.context.Sound) {last : OpRef}
    (hlast : (e.context.opsOf b).getLast? = some last) (ho : e.context.HasOp o)
    (hfree : e.context.blockOf o = none)
    (hunused : ∀ p, e.context.Within p last → ∀ v ∈ e.context.results p,
      ∀ q, v ∈ e.context.heldBy q → e.context.Within q last) :
    ∃ e', e.replaceTerminator b o = .ok e' ∧ (e.Recorded → e'.Recorded) := by
  have hmem := List.mem_of_getLast? hlast
  have hb : e.context.HasBlock b :=
    h.coherent.hasBlock_of_blockOf ((h.coherent.ops.owner_iff last b).2 hmem)
  obtain ⟨e₁, herase, hrec₁⟩ := eraseOp_ok h (h.coherent.hasOp_of_mem hmem) hunused
  have herasure := eraseOp_erasure h herase
  have hpush : e₁.context.pushOp b o = .ok _ := pushOp_eq_ok.2
    ⟨herasure.inPlace.hasOp.2 ho, herasure.inPlace.hasBlock.2 hb, by
      rw [herasure.blockOf, hfree, ite_self], rfl⟩
  refine ⟨_, ?_, fun hrec => (hrec₁ hrec).put (pushOp_put herasure.sound.coherent hpush)⟩
  simp only [replaceTerminator, terminator?_ok hb, hlast, Outcome.ok_bind, herase, insertOpAtEnd]
  rw [hpush]
  rfl

end Editor

end Offload
