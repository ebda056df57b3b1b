import Offload.Proofs.Ir.Copy

/-!
# Copying as allocation

Whatever the map, and whether or not ways up end: copying does nothing but allocate,
and put what it made where it belongs. So what every allocation keeps, a copy keeps
(`Frame`). In a coherent context more is true. The rows from before stay, the tables
go on to agree, and the copy is new and free (`Coherent.cloneOp_grows`).
-/

namespace Offload

open Context

namespace Clone

/-! ## What every allocation keeps -/

/-- A relation of contexts that holds across every step of copying. -/
structure Frame (R : Context → Context → Prop) : Prop where
  refl : ∀ ctx, R ctx ctx
  trans : ∀ {ctx ctx₁ ctx₂}, R ctx ctx₁ → R ctx₁ ctx₂ → R ctx ctx₂
  addBlock : ∀ ctx location argTypes, R ctx (ctx.addBlock location argTypes []).1
  append : ∀ ctx b o, R ctx (ctx.append b o)
  addRegion : ∀ ctx location blocks, R ctx (ctx.addRegion location blocks).1
  addOp : ∀ ctx blueprint, R ctx (ctx.addOp blueprint).1

section Frame

variable {R : Context → Context → Prop} {op : OpRef → CloneM OpRef} {s s' : Cloning}

theorem Frame.fill (h : Frame R)
    (hop : ∀ o s copy s', (op o).run s = .ok (copy, s') → R s.context s'.context)
    {copy : BlockRef} {os : List OpRef}
    (hrun : (forIn os PUnit.unit fun o _ => do
          let o' ← op o
          onContext fun ctx => (ctx.append copy o', ())
          pure (ForInStep.yield PUnit.unit) : CloneM PUnit).run s = .ok (PUnit.unit, s')) :
    R s.context s'.context := by
  induction os generalizing s with
  | nil =>
    simp only [List.forIn_nil, StateT.run_pure, Outcome.pure_eq_ok, Prod.mk.injEq] at hrun
    obtain ⟨-, rfl⟩ := hrun
    exact h.refl _
  | cons o os ih =>
    obtain ⟨o', s₁, ho, hrest⟩ := fill_cons hrun
    exact h.trans (h.trans (hop o s o' s₁ ho) (h.append _ copy o')) (ih hrest)

theorem Frame.mapM (h : Frame R) {α β : Type} {f : α → CloneM β} {xs : List α} {ys : List β}
    (hf : ∀ x s y s', (f x).run s = .ok (y, s') → R s.context s'.context)
    (hrun : (xs.mapM f).run s = .ok (ys, s')) : R s.context s'.context :=
  mapM_chain (fun ctx _ ctx₁ => R ctx ctx₁) h.refl (fun _ _ _ _ _ => h.trans) hf hrun

theorem Frame.block (h : Frame R)
    (hop : ∀ o s copy s', (op o).run s = .ok (copy, s') → R s.context s'.context)
    {b copy : BlockRef} (hrun : (block op b).run s = .ok (copy, s')) : R s.context s'.context := by
  obtain ⟨row, -, -, hloop⟩ := block_eq_ok hrun
  exact h.trans (h.addBlock _ _ _) (h.fill hop hloop)

theorem Frame.region (h : Frame R)
    (hop : ∀ o s copy s', (op o).run s = .ok (copy, s') → R s.context s'.context)
    {r copy : RegionRef} (hrun : (region op r).run s = .ok (copy, s')) :
    R s.context s'.context := by
  obtain ⟨row, blocks, s₁, -, hblocks, -, rfl⟩ := region_eq_ok hrun
  exact h.trans (h.mapM (fun _ _ _ _ => h.block hop) hblocks) (h.addRegion _ _ _)

theorem Frame.opWithin (h : Frame R) {n : Nat} {o copy : OpRef}
    (hrun : (opWithin n o).run s = .ok (copy, s')) : R s.context s'.context := by
  induction n generalizing o s copy s' with
  | zero => simp [Clone.opWithin] at hrun
  | succ n ih =>
    obtain ⟨row, regions, s₁, -, hregions, -, rfl⟩ := opWithin_succ_eq_ok hrun
    exact h.trans (h.mapM (fun _ _ _ _ => h.region fun _ _ _ _ => ih) hregions) (h.addOp _ _)

theorem Frame.cloneOp (h : Frame R) {ctx ctx' : Context} {o copy : OpRef} {map map' : ValueMap}
    (hrun : ctx.cloneOp o map = .ok (ctx', map', copy)) : R ctx ctx' := by
  simp only [Context.cloneOp, Outcome.bind_eq_ok, Outcome.pure_eq_ok, Prod.exists,
    Prod.mk.injEq] at hrun
  obtain ⟨copy, s', hrun, rfl, rfl, rfl⟩ := hrun
  exact h.opWithin hrun

end Frame

/-! ## Growth of coherent contexts -/

/-- The context stays coherent, and the rows that it had stay. What is given was made on
    the way. -/
def Grows {α : Type} (made : Context → Context → α → Prop) (ctx : Context) (xs : List α)
    (ctx' : Context) : Prop :=
  ctx.Coherent → ctx'.Coherent ∧ ctx.Extends ctx' ∧ xs.Nodup ∧ ∀ x ∈ xs, made ctx ctx' x

section Grows

variable {α : Type} {made : Context → Context → α → Prop} {ctx ctx₁ ctx₂ : Context}

theorem Grows.nil (ctx : Context) : Grows made ctx [] ctx :=
  fun h => ⟨h, .refl ctx, List.nodup_nil, by simp⟩

theorem Grows.cons
    (hmono : ∀ c c₁ c₂ c₃ x, c.Extends c₁ → made c₁ c₂ x → c₂.Extends c₃ → made c c₃ x)
    (hnew : ∀ c c₁ c₂ x, made c c₁ x → ¬made c₁ c₂ x) {x : α} {xs : List α}
    (h₁ : Grows made ctx [x] ctx₁) (h₂ : Grows made ctx₁ xs ctx₂) :
    Grows made ctx (x :: xs) ctx₂ := by
  intro h
  obtain ⟨hc₁, hext₁, -, hmade₁⟩ := h₁ h
  obtain ⟨hc₂, hext₂, hnodup, hmade₂⟩ := h₂ hc₁
  have hx := hmade₁ x List.mem_cons_self
  exact ⟨hc₂, hext₁.trans hext₂,
    List.nodup_cons.2 ⟨fun hm => hnew _ _ _ x hx (hmade₂ x hm), hnodup⟩,
    List.forall_mem_cons.2 ⟨hmono _ _ _ _ x (.refl _) hx hext₂,
      fun y hy => hmono _ _ _ _ y hext₁ (hmade₂ y hy) (.refl _)⟩⟩

variable {op : OpRef → CloneM OpRef}
  (hop : ∀ o s copy s', (op o).run s = .ok (copy, s') → Grows MadeOp s.context [copy] s'.context)

include hop

/-- The loop over the operations of a block, whose copy was made before. -/
theorem fill_grows {copy : BlockRef} {os : List OpRef} {s s' : Cloning} (hs : s.context.Coherent)
    (hcopy : s.context.HasBlock copy) (hfree : s.context.regionOf copy = none)
    (hrun : (forIn os PUnit.unit fun o _ => do
          let o' ← op o
          onContext fun ctx => (ctx.append copy o', ())
          pure (ForInStep.yield PUnit.unit) : CloneM PUnit).run s = .ok (PUnit.unit, s')) :
    s'.context.Coherent ∧ s'.context.HasBlock copy ∧ s'.context.regionOf copy = none ∧
      ∀ old : Context, old.Extends s.context → ¬old.HasBlock copy → old.Extends s'.context := by
  induction os generalizing s with
  | nil =>
    simp only [List.forIn_nil, StateT.run_pure, Outcome.pure_eq_ok, Prod.mk.injEq] at hrun
    obtain ⟨-, rfl⟩ := hrun
    exact ⟨hs, hcopy, hfree, fun _ h _ => h⟩
  | cons o os ih =>
    obtain ⟨o', s₁, ho, hrest⟩ := fill_cons hrun
    obtain ⟨hc₁, hext₁, -, hmade⟩ := hop o s o' s₁ ho hs
    obtain ⟨hnew₁, hex₁, hfree₁⟩ := hmade o' List.mem_cons_self
    have hcopy₁ : s₁.context.HasBlock copy := hext₁.hasBlock hcopy
    have hput := pushOp_put hc₁ (pushOp_eq_ok.2 ⟨hex₁, hcopy₁, hfree₁, rfl⟩)
    obtain ⟨hc', hcopy', hfree', hext'⟩ :=
      ih (s := { s₁ with context := s₁.context.append copy o' }) (hc₁.put hput)
        (hput.relisted.inPlace.hasBlock.2 hcopy₁)
        ((congrFun hput.relisted.inPlace.regionOf copy).trans
          ((hext₁.readBlock hcopy _ _).trans hfree)) hrest
    exact ⟨hc', hcopy', hfree', fun old h hn =>
      hext' old ((h.trans hext₁).append hn fun ho' => hnew₁ (h.hasOp ho')) hn⟩

theorem block_grows {b copy : BlockRef} {s s' : Cloning}
    (hrun : (block op b).run s = .ok (copy, s')) :
    Grows MadeBlock s.context [copy] s'.context := by
  intro h
  obtain ⟨row, -, rfl, hloop⟩ := block_eq_ok hrun
  have hnew : ¬s.context.HasBlock ⟨s.context.blocks.size⟩ := not_hasBlock_size
  have hrow : (s.context.addBlock row.location row.argTypes []).1.block
      ⟨s.context.blocks.size⟩ =
      .ok ⟨row.location, row.argTypes, s.context.nextValues row.argTypes.length, [], none⟩ := by
    rw [block_iff_readBlock, readBlock_addBlock, if_pos rfl]
  obtain ⟨hc, hex, hfree, hext⟩ := fill_grows hop (s := ⟨_, _⟩)
    (h.addBlock (by simp) (by simp) List.nodup_nil) (hasBlock_iff.2 ⟨_, hrow⟩)
    (readBlock_of_block hrow _ _) hloop
  exact ⟨hc, hext _ extends_addBlock hnew, List.nodup_singleton _,
    List.forall_mem_singleton.2 ⟨hnew, hex, hfree⟩⟩

theorem region_grows {r copy : RegionRef} {s s' : Cloning}
    (hrun : (region op r).run s = .ok (copy, s')) :
    Grows MadeRegion s.context [copy] s'.context := by
  intro h
  obtain ⟨row, blocks, s₁, -, hblocks, rfl, rfl⟩ := region_eq_ok hrun
  obtain ⟨hc, hext, hnodup, hmade⟩ := mapM_chain (Grows MadeBlock) Grows.nil
    (fun _ _ _ _ _ => Grows.cons (fun _ _ _ _ _ h₁ hb h₃ => hb.widen h₁ h₃)
      fun _ _ _ _ hb hb' => hb'.1 hb.2.1) (fun _ _ _ _ => block_grows hop) hblocks h
  have hrow : (s₁.context.addRegion row.location blocks).1.region ⟨s₁.context.regions.size⟩ =
      .ok ⟨row.location, blocks, none⟩ := by
    rw [region_iff_readRegion, readRegion_addRegion, if_pos rfl]
  exact ⟨hc.addRegion (fun b hb => (hmade b hb).2.1) (fun b hb => (hmade b hb).2.2) hnodup,
    hext.addRegion fun b hb => (hmade b hb).1, List.nodup_singleton _,
    List.forall_mem_singleton.2 ⟨fun hr => not_hasRegion_size (hext.hasRegion hr),
      hasRegion_iff.2 ⟨_, hrow⟩, readRegion_of_region hrow _ _⟩⟩

end Grows

theorem opWithin_grows {n : Nat} {o copy : OpRef} {s s' : Cloning}
    (hrun : (opWithin n o).run s = .ok (copy, s')) :
    Grows MadeOp s.context [copy] s'.context := by
  induction n generalizing o s copy s' with
  | zero => simp [opWithin] at hrun
  | succ n ih =>
    intro h
    obtain ⟨row, regions, s₁, -, hregions, rfl, rfl⟩ := opWithin_succ_eq_ok hrun
    obtain ⟨hc, hext, hnodup, hmade⟩ := mapM_chain (Grows MadeRegion) Grows.nil
      (fun _ _ _ _ _ => Grows.cons (fun _ _ _ _ _ h₁ hr h₃ => hr.widen h₁ h₃)
        fun _ _ _ _ hr hr' => hr'.1 hr.2.1)
      (fun _ _ _ _ => region_grows fun _ _ _ _ hrun => ih hrun) hregions h
    have hrow : (s₁.context.addOp (blueprint row (row.operands.map s.map.apply) regions)).1.op
        ⟨s₁.context.ops.size⟩ = .ok (s₁.context.freshRow
          (blueprint row (row.operands.map s.map.apply) regions)) := by
      rw [op_iff_readOp, readOp_addOp, if_pos rfl]
    exact ⟨hc.addOp (fun r hr => (hmade r hr).2.1) (fun r hr => (hmade r hr).2.2) hnodup,
      hext.addOp fun r hr => (hmade r hr).1, List.nodup_singleton _,
      List.forall_mem_singleton.2 ⟨fun ho => not_hasOp_size (hext.hasOp ho),
        hasOp_iff.2 ⟨_, hrow⟩, readOp_of_op hrow _ _⟩⟩

end Clone

/-- A copy leaves all there was as it is, and is new and free. -/
theorem Context.Coherent.cloneOp_grows {ctx ctx' : Context} (h : ctx.Coherent) {o copy : OpRef}
    {map map' : ValueMap} (hrun : ctx.cloneOp o map = .ok (ctx', map', copy)) :
    ctx'.Coherent ∧ ctx.Extends ctx' ∧ MadeOp ctx ctx' copy := by
  simp only [Context.cloneOp, Outcome.bind_eq_ok, Outcome.pure_eq_ok, Prod.exists,
    Prod.mk.injEq] at hrun
  obtain ⟨copy, s', hrun, rfl, rfl, rfl⟩ := hrun
  obtain ⟨hc, hext, -, hmade⟩ := Clone.opWithin_grows hrun h
  exact ⟨hc, hext, hmade copy List.mem_cons_self⟩

end Offload
