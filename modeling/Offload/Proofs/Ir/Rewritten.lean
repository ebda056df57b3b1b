import Offload.Proofs.Ir.Bare

/-!
# Contexts whose operands were written to

Calls look at operands only to keep them in step with the use chains. So a call does to the
bare context what it does to the context, if anything (`Step.bare`), and to write to operands
does nothing to it. Whatever is written past the chains, and whatever is called in between,
the bare context of a sound one thus stays sound (`Edits.sound_bare`).
-/

namespace Offload

/-- Without operands and use chains. -/
def Cloning.bare (s : Cloning) : Cloning := { s with context := s.context.bare }

namespace Context

variable {ctx ctx' : Context} {o : OpRef} {b : BlockRef}

/-! ## Rows -/

theorem modifyOp_bare {f : Operation → Operation} (h : ∀ row, (f row).bare = f row.bare)
    (o : OpRef) : (ctx.modifyOp o f).bare = ctx.bare.modifyOp o f := by
  have hops : (ctx.ops.modify o.index f).map Operation.bare =
      (ctx.ops.map Operation.bare).modify o.index f := by
    refine Array.ext_getElem? fun i => ?_
    simp only [Array.getElem?_map, Array.getElem?_modify]
    split
    · cases ctx.ops[i]? <;> simp [h]
    · rfl
  rw [bare, modifyOp, hops]
  rfl

theorem foldl_modifyOp_bare {f : Operation → Operation} (h : ∀ row, (f row).bare = f row.bare)
    (os : List OpRef) (ctx : Context) : (os.foldl (fun ctx o => ctx.modifyOp o f) ctx).bare =
      os.foldl (fun ctx o => ctx.modifyOp o f) ctx.bare := by
  induction os generalizing ctx with
  | nil => rfl
  | cons o os ih => rw [List.foldl_cons, List.foldl_cons, ih, modifyOp_bare h]

theorem relist_bare (o : OpRef) (owner : Option BlockRef) (b : BlockRef)
    (g : List OpRef → List OpRef) : (ctx.relist o owner b g).bare = ctx.bare.relist o owner b g :=
  congrArg (·.modifyBlock b fun row => { row with ops := g row.ops })
    (modifyOp_bare (f := fun row => { row with parent := owner }) (fun _ => rfl) o)

theorem addOp_bare (blueprint : Blueprint) : (ctx.addOp blueprint).1.bare =
    (ctx.bare.addOp { blueprint with operands := [] }).1 := by
  simp only [addOp, foldl_modifyRegion, bare, addValues, Array.map_push, addUses, Array.size_map]
  rfl

theorem addBlock_bare (location : Location) (argTypes : List TypeRef) (ops : List OpRef) :
    (ctx.addBlock location argTypes ops).1.bare = (ctx.bare.addBlock location argTypes ops).1 :=
  congrArg (·.addValues (.argument ⟨ctx.blocks.size⟩) argTypes) (foldl_modifyOp_bare
    (f := fun row => { row with parent := some ⟨ctx.blocks.size⟩ }) (fun _ => rfl) ops _)

theorem addRegion_bare (location : Location) (blocks : List BlockRef) :
    (ctx.addRegion location blocks).1.bare = (ctx.bare.addRegion location blocks).1 := by
  simp only [addRegion, foldl_modifyBlock]
  rfl

/-! ## Calls -/

theorem checkRegionsFree_bare {o : OpRef} {owned rs : List RegionRef} :
    ctx.bare.checkRegionsFree o owned rs = ctx.checkRegionsFree o owned rs := by
  induction rs generalizing owned with
  | nil => rfl
  | cons r rs ih =>
    rw [checkRegionsFree, checkRegionsFree]
    simp only [ih]
    rfl

theorem checkBlocksFree_bare {r : RegionRef} {owned bs : List BlockRef} :
    ctx.bare.checkBlocksFree r owned bs = ctx.checkBlocksFree r owned bs := by
  induction bs generalizing owned with
  | nil => rfl
  | cons b bs ih =>
    rw [checkBlocksFree, checkBlocksFree]
    simp only [ih]
    rfl

theorem createOp_on_bare {blueprint : Blueprint} (hrun : ctx.createOp blueprint = .ok (ctx', o)) :
    ctx.bare.createOp { blueprint with operands := [] } = .ok (ctx'.bare, o) := by
  obtain ⟨⟨⟩, hfree, hadd⟩ := Outcome.bind_eq_ok.1 hrun
  obtain ⟨rfl, rfl⟩ := Prod.mk.inj (Outcome.pure_eq_ok.1 hadd)
  refine Outcome.bind_eq_ok.2 ⟨⟨⟩, ?_, Outcome.pure_eq_ok.2 (Prod.ext (addOp_bare _).symm ?_)⟩
  · rw [checkRegionsFree_bare, size_ops_bare]
    exact hfree
  · exact congrArg OpRef.mk size_ops_bare

theorem createBlock_on_bare {location : Location} {argTypes : List TypeRef} {ops : List OpRef}
    (hrun : ctx.createBlock location argTypes ops = .ok (ctx', b)) :
    ctx.bare.createBlock location argTypes ops = .ok (ctx'.bare, b) := by
  obtain ⟨⟨⟩, hex, hadd⟩ := Outcome.bind_eq_ok.1 hrun
  obtain ⟨rfl, rfl⟩ := Prod.mk.inj (Outcome.pure_eq_ok.1 hadd)
  refine Outcome.bind_eq_ok.2 ⟨⟨⟩, ?_, Outcome.pure_eq_ok.2 (Prod.ext (addBlock_bare ..).symm rfl)⟩
  clear hadd hrun
  induction ops with
  | nil => rfl
  | cons o ops ih =>
    simp only [List.forIn_cons, bind_assoc, pure_bind, Outcome.bind_eq_ok] at hex ⊢
    obtain ⟨row, hrow, hex⟩ := hex
    exact ⟨row.bare, op_bare_of_op hrow, ih hex⟩

theorem createRegion_on_bare {location : Location} {blocks : List BlockRef} {r : RegionRef}
    (hrun : ctx.createRegion location blocks = .ok (ctx', r)) :
    ctx.bare.createRegion location blocks = .ok (ctx'.bare, r) := by
  obtain ⟨⟨⟩, hfree, hadd⟩ := Outcome.bind_eq_ok.1 hrun
  obtain ⟨rfl, rfl⟩ := Prod.mk.inj (Outcome.pure_eq_ok.1 hadd)
  refine Outcome.bind_eq_ok.2 ⟨⟨⟩, checkBlocksFree_bare.trans hfree, ?_⟩
  exact Outcome.pure_eq_ok.2 (Prod.ext (addRegion_bare ..).symm rfl)

theorem pushOp_on_bare (hrun : ctx.pushOp b o = .ok ctx') :
    ctx.bare.pushOp b o = .ok ctx'.bare := by
  obtain ⟨ho, hb, hfree, rfl⟩ := pushOp_eq_ok.1 hrun
  exact pushOp_eq_ok.2 ⟨hasOp_bare.2 ho, hb, by rwa [blockOf_bare], relist_bare ..⟩

theorem insertOpAt_on_bare {position : Nat} (hrun : ctx.insertOpAt b position o = .ok ctx') :
    ctx.bare.insertOpAt b position o = .ok ctx'.bare := by
  obtain ⟨ho, hb, hfree, hle, rfl⟩ := insertOpAt_eq_ok.1 hrun
  exact insertOpAt_eq_ok.2 ⟨hasOp_bare.2 ho, hb, by rwa [blockOf_bare], hle, relist_bare ..⟩

theorem insertOpBefore_on_bare {anchor : OpRef} (hrun : ctx.insertOpBefore b anchor o = .ok ctx') :
    ctx.bare.insertOpBefore b anchor o = .ok ctx'.bare := by
  obtain ⟨position, hposition, hrun⟩ := insertOpBefore_eq_ok.1 hrun
  exact insertOpBefore_eq_ok.2 ⟨position, hposition, insertOpAt_on_bare hrun⟩

theorem removeOpFromBlock_on_bare (hrun : ctx.removeOpFromBlock b o = .ok ctx') :
    ctx.bare.removeOpFromBlock b o = .ok ctx'.bare := by
  obtain ⟨ho, hb, rfl⟩ := removeOpFromBlock_eq_ok.1 hrun
  refine removeOpFromBlock_eq_ok.2 ⟨hasOp_bare.2 ho, hb, ?_⟩
  rw [blockOf_bare]
  split
  · exact relist_bare ..
  · rfl

theorem detachOp_on_bare (hrun : ctx.detachOp o = .ok ctx') :
    ctx.bare.detachOp o = .ok ctx'.bare := by
  obtain ⟨row, hrow, hrun⟩ := Outcome.bind_eq_ok.1 hrun
  refine Outcome.bind_eq_ok.2 ⟨row.bare, op_bare_of_op hrow, ?_⟩
  cases hparent : row.parent with
  | none =>
    rw [hparent] at hrun
    simp [Operation.bare, hparent, Outcome.pure_eq_ok.1 hrun]
  | some b =>
    rw [hparent] at hrun
    simpa [Operation.bare, hparent] using removeOpFromBlock_on_bare hrun

theorem moveOpBefore_on_bare {anchor : OpRef} (hrun : ctx.moveOpBefore o anchor = .ok ctx') :
    ctx.bare.moveOpBefore o anchor = .ok ctx'.bare := by
  obtain ⟨row, hrow, hrun⟩ := Outcome.bind_eq_ok.1 hrun
  refine Outcome.bind_eq_ok.2 ⟨row.bare, op_bare_of_op hrow, ?_⟩
  cases hparent : row.parent with
  | none => simp [hparent] at hrun
  | some b =>
    rw [hparent] at hrun
    obtain ⟨ctx₁, hdetach, hinsert⟩ := Outcome.bind_eq_ok.1 hrun
    simp only [Operation.bare, hparent]
    exact Outcome.bind_eq_ok.2 ⟨ctx₁.bare, detachOp_on_bare hdetach, insertOpBefore_on_bare hinsert⟩

theorem dropUsesOf_on_bare {os : List OpRef} (hex : ∀ o ∈ os, ctx.HasOp o) :
    dropUsesOf ctx.bare os = .ok ctx.bare := by
  induction os with
  | nil => rfl
  | cons o os ih =>
    obtain ⟨ho, hos⟩ := List.forall_mem_cons.1 hex
    obtain ⟨row, hrow⟩ := hasOp_iff.1 ho
    refine Outcome.bind_eq_ok.2 ⟨row.bare, op_bare_of_op hrow, ?_⟩
    exact ih hos

theorem eraseOp_on_bare (hrun : ctx.eraseOp o = .ok ctx') : ctx.bare.eraseOp o = .ok ctx'.bare := by
  obtain ⟨row, hrow, hrun⟩ := Outcome.bind_eq_ok.1 hrun
  refine Outcome.bind_eq_ok.2 ⟨row.bare, op_bare_of_op hrow, ?_⟩
  cases hparent : row.parent with
  | some b => simp [hparent] at hrun
  | none =>
    simp only [hparent, Outcome.bind_eq_ok, Outcome.pure_eq_ok] at hrun
    obtain ⟨tree, htree, ctx₁, hdrop, ⟨⟩, -, rfl⟩ := hrun
    obtain ⟨hex, uses, rfl, -⟩ := dropUsesOf_eq_ok hdrop
    -- no chain of the bare context has an entry: none is dropped, and none is left to object to
    simp only [Operation.bare, hparent, subtree_bare, htree, Outcome.ok_bind,
      dropUsesOf_on_bare hex]
    refine Outcome.bind_eq_ok.2 ⟨(), checkUnused_eq_ok.2 fun v _ => rfl, ?_⟩
    exact Outcome.pure_eq_ok.2 (foldl_modifyOp_bare (f := fun row => { row with erased := true })
      (fun _ => rfl) tree { ctx with uses }).symm

theorem bare_redirect {old new : ValueRef} {us : List Use}
    (hrun : redirect old new ctx us = .ok ctx') : ctx'.bare = ctx.bare := by
  induction us generalizing ctx with
  | nil =>
    obtain rfl := Outcome.pure_eq_ok.1 hrun
    rfl
  | cons u us ih =>
    obtain ⟨row, -, hrun⟩ := Outcome.bind_eq_ok.1 hrun
    obtain ⟨held, -, hrun⟩ := Outcome.bind_eq_ok.1 hrun
    split at hrun
    · simp at hrun
    · have hrow (row : Operation) :
          ({ row with operands := row.operands.set u.slot new } : Operation).bare = row.bare := rfl
      exact (ih hrun).trans (bare_modifyOp hrow u.user)

theorem bare_replaceAllUses {old new : ValueRef} (hrun : ctx.replaceAllUses old new = .ok ctx') :
    ctx'.bare = ctx.bare := by
  rw [replaceAllUses] at hrun
  split at hrun
  · exact Outcome.pure_eq_ok.1 hrun ▸ rfl
  · have hredirect := bare_redirect hrun
    exact hredirect

theorem internType_bare (node : TypeNode) :
    (ctx.internType node).1.bare = (ctx.bare.internType node).1 := rfl

theorem internPath_bare (path : String) :
    (ctx.internPath path).1.bare = (ctx.bare.internPath path).1 := rfl

theorem internSymbols_bare (names : List String) :
    (ctx.internSymbols names).bare = ctx.bare.internSymbols names := rfl

theorem setAttribute_bare (o : OpRef) (key : String) (a : Attribute) :
    (ctx.setAttribute o key a).bare = ctx.bare.setAttribute o key a :=
  modifyOp_bare (f := fun row => { row with attributes := row.attributes.set key a })
    (fun _ => rfl) o

end Context

/-! ## Copying -/

namespace Clone

open Context

/-- What one run gives, the other one gives from the bare state, and ends in the bare state. -/
def Shadows {α : Type} (x y : CloneM α) : Prop :=
  ∀ s a s', x.run s = .ok (a, s') → y.run s.bare = .ok (a, s'.bare)

section Shadows

variable {α β : Type}

theorem Shadows.pure (a : α) : Shadows (pure a : CloneM α) (pure a) := fun s b s' hrun => by
  rw [StateT.run_pure, Outcome.pure_eq_ok] at hrun ⊢
  obtain ⟨rfl, rfl⟩ := Prod.mk.inj hrun
  rfl

theorem Shadows.bind {x y : CloneM α} {f g : α → CloneM β} (hx : Shadows x y)
    (hf : ∀ a, Shadows (f a) (g a)) : Shadows (x >>= f) (y >>= g) := fun s b s' hrun => by
  rw [StateT.run_bind] at hrun ⊢
  obtain ⟨⟨a, s₁⟩, ha, hb⟩ := Outcome.bind_eq_ok.1 hrun
  exact Outcome.bind_eq_ok.2 ⟨(a, s₁.bare), hx s a s₁ ha, hf a s₁ b s' hb⟩

/-- What is read off the state may be bare. -/
theorem Shadows.get {f g : Cloning → CloneM β} (hf : ∀ s, Shadows (f s) (g s.bare)) :
    Shadows (get >>= f) (get >>= g) := fun s b s' hrun => hf s s b s' hrun

/-- A row that is looked up may be bare. -/
theorem Shadows.lookup {x y : Except Fault α} {f g : α → CloneM β} (bared : α → α)
    (hxy : ∀ a, x = .ok a → y = .ok (bared a)) (hf : ∀ a, Shadows (f a) (g (bared a))) :
    Shadows ((x : CloneM α) >>= f) ((y : CloneM α) >>= g) := fun s b s' hrun => by
  simp only [StateT.run_bind, StateT.run_monadLift, Outcome.bind_eq_ok, Outcome.pure_eq_ok]
    at hrun ⊢
  obtain ⟨_, ⟨a, ha, rfl⟩, hb⟩ := hrun
  exact ⟨_, ⟨bared a, hxy a ha, rfl⟩, hf a s b s' hb⟩

theorem Shadows.lift {x : Except Fault α} {f g : α → CloneM β} (hf : ∀ a, Shadows (f a) (g a)) :
    Shadows ((x : CloneM α) >>= f) ((x : CloneM α) >>= g) := .lookup id (fun _ => id) hf

theorem Shadows.mapM {f g : α → CloneM β} (h : ∀ x, Shadows (f x) (g x)) (xs : List α) :
    Shadows (xs.mapM f) (xs.mapM g) := by
  induction xs with
  | nil =>
    rw [List.mapM_nil, List.mapM_nil]
    exact .pure []
  | cons x xs ih =>
    rw [List.mapM_cons, List.mapM_cons]
    exact (h x).bind fun y => ih.bind fun ys => .pure (y :: ys)

theorem Shadows.forIn {f g : α → PUnit → CloneM (ForInStep PUnit)}
    (h : ∀ x, Shadows (f x ⟨⟩) (g x ⟨⟩)) (xs : List α) :
    Shadows (forIn xs ⟨⟩ f) (forIn xs ⟨⟩ g) := by
  induction xs with
  | nil => exact .pure _
  | cons x xs ih =>
    rw [List.forIn_cons, List.forIn_cons]
    refine (h x).bind fun step => ?_
    cases step with
    | done => exact .pure _
    | yield => exact ih

theorem Shadows.onContext {f g : Context → Context × α}
    (h : ∀ ctx, ((f ctx).1.bare, (f ctx).2) = g ctx.bare) :
    Shadows (onContext f) (onContext g) := fun s a s' hrun => by
  obtain ⟨rfl, rfl⟩ := Prod.mk.inj (Except.ok.inj hrun)
  exact congrArg (fun p : Context × α => Except.ok (p.2, { s with context := p.1 }))
    (h s.context).symm

theorem Shadows.record (vs ws : List ValueRef) : Shadows (record vs ws) (record vs ws) :=
  fun s a s' hrun => by
  obtain ⟨rfl, rfl⟩ := Prod.mk.inj (Except.ok.inj hrun)
  rfl

theorem shadows_block {op : OpRef → CloneM OpRef} (hop : ∀ o, Shadows (op o) (op o))
    (b : BlockRef) : Shadows (block op b) (block op b) := by
  refine .get fun _ => .lift fun source => .bind (.onContext fun _ => ?_) fun copy =>
    .get fun _ => .bind (.record _ _) fun _ => .bind (.forIn (fun o => ?_) _) fun _ => .pure copy
  · exact Prod.ext (addBlock_bare ..) rfl
  · refine (hop o).bind fun o' => .bind (.onContext fun ctx => ?_) fun _ => .pure _
    exact Prod.ext (relist_bare o' (some copy) copy (· ++ [o'])) rfl

theorem shadows_region {op : OpRef → CloneM OpRef} (hop : ∀ o, Shadows (op o) (op o))
    (r : RegionRef) : Shadows (region op r) (region op r) :=
  .get fun _ => .lift fun source => .bind (.mapM (shadows_block hop) source.blocks) fun _ =>
    .onContext fun _ => Prod.ext (addRegion_bare ..) rfl

theorem shadows_opWithin (n : Nat) (o : OpRef) : Shadows (opWithin n o) (opWithin n o) := by
  induction n generalizing o with
  | zero => exact fun _ _ _ hrun => by cases hrun
  | succ n ih =>
    -- the copy of a bare row has no operands to map, so the maps need not be compared there
    refine .get fun s => .lookup Operation.bare (fun _ => op_bare_of_op) fun source => .get fun _ =>
      .bind (.mapM (shadows_region ih) source.regions) fun _ =>
      .bind (.onContext fun _ => ?_) fun copy => .get fun s => ?_
    · exact Prod.ext (addOp_bare ..) (congrArg OpRef.mk size_ops_bare.symm)
    · have hresults : s.bare.context.results = s.context.results := results_bare
      rw [hresults]
      exact .bind (.record _ _) fun _ => .pure copy

end Shadows

end Clone

namespace Context

variable {ctx ctx' : Context}

theorem cloneOp_on_bare {o copy : OpRef} {map map' : ValueMap}
    (hrun : ctx.cloneOp o map = .ok (ctx', map', copy)) :
    ctx.bare.cloneOp o map = .ok (ctx'.bare, map', copy) := by
  simp only [cloneOp, Outcome.bind_eq_ok, Outcome.pure_eq_ok, Prod.exists, Prod.mk.injEq] at hrun ⊢
  obtain ⟨copy, s', hrun, rfl, rfl, rfl⟩ := hrun
  have hshadow := Clone.shadows_opWithin _ o _ copy s' hrun
  refine ⟨copy, s'.bare, ?_, rfl, rfl, rfl⟩
  rw [size_ops_bare]
  exact hshadow

/-! ## Steps -/

/-- A call does to the bare context what it does to the context, or nothing. -/
theorem Step.bare (hstep : ctx.Step ctx') :
    ctx'.bare = ctx.bare ∨ ctx.bare.Step ctx'.bare := by
  cases hstep with
  | createOp run => exact .inr (.createOp (createOp_on_bare run))
  | createBlock free nodup run =>
    refine .inr (.createBlock (fun o ho => ?_) nodup (createBlock_on_bare run))
    rw [blockOf_bare, free o ho]
  | createRegion run => exact .inr (.createRegion (createRegion_on_bare run))
  | pushOp outside run =>
    exact .inr (.pushOp (fun t ht hw => outside t ht (within_bare.1 hw)) (pushOp_on_bare run))
  | insertOpAt outside run =>
    exact .inr (.insertOpAt (fun t ht hw => outside t ht (within_bare.1 hw))
      (insertOpAt_on_bare run))
  | insertOpBefore outside run =>
    exact .inr (.insertOpBefore (fun t ht hw => outside t ht (within_bare.1 hw))
      (insertOpBefore_on_bare run))
  | moveOpBefore outside run =>
    refine .inr (.moveOpBefore (fun t ht hw => ?_) (moveOpBefore_on_bare run))
    exact outside t (above_bare ▸ ht) (within_bare.1 hw)
  | detachOp run => exact .inr (.detachOp (detachOp_on_bare run))
  | removeOpFromBlock run => exact .inr (.removeOpFromBlock (removeOpFromBlock_on_bare run))
  | eraseOp run => exact .inr (.eraseOp (eraseOp_on_bare run))
  | replaceAllUses run => exact .inl (bare_replaceAllUses run)
  | cloneOp run => exact .inr (.cloneOp (cloneOp_on_bare run))
  | internType node => exact .inr (internType_bare node ▸ .internType node)
  | internPath path => exact .inr (internPath_bare path ▸ .internPath path)
  | internSymbols names => exact .inr (internSymbols_bare names ▸ .internSymbols names)
  | setAttribute o key a => exact .inr (setAttribute_bare o key a ▸ .setAttribute o key a)

/-- A context is changed by a call, or other operands are written into the row of an
    operation. -/
inductive Edit (ctx : Context) : Context → Prop
  | call {ctx' : Context} (step : ctx.Step ctx') : Edit ctx ctx'
  | writeOperands (o : OpRef) (operands : List ValueRef) :
      Edit ctx (ctx.modifyOp o fun row => { row with operands })

/-- Edits, one after the other. -/
def Edits : Context → Context → Prop := Relation.ReflTransGen Edit

/-- Whatever is written into operands, the context stays sound but for operands and chains. -/
theorem Edits.sound_bare (hedits : ctx.Edits ctx') (h : ctx.Sound) : ctx'.bare.Sound := by
  induction hedits with
  | refl => exact h.bare
  | tail _ hedit ih =>
    cases hedit with
    | call hstep =>
      rcases hstep.bare with hsame | hstep
      · rwa [hsame]
      · exact hstep.sound ih
    | writeOperands o operands =>
      have hrow (row : Operation) : ({ row with operands } : Operation).bare = row.bare := rfl
      rwa [bare_modifyOp hrow]

end Context

end Offload
