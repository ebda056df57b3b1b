import Offload.Proofs.Ir.Cloning
import Offload.Proofs.Ir.Reachable
import Offload.Proofs.Source.Order
import Offload.Proofs.Validity

/-!
# The invariant of the arena

A context is an arena: it hands out handles, and whoever changes it gives them back. It is
*accounted for* if it is sound and every handle in its rows names something, of the type that is
given for it (`Accounted`).

That rows are sound, and that values have the types they are given, is kept by all that changes a
context, whatever it is given (`Reachable.typed`). Operands are what callers give, so they are kept
to be values if it is values that are given: of all changes three are given any (`Step.takes`), and
these put nothing in a row but what they are given or what another row has (`Takes.settled`). A
context that was made from nothing by calls with handles it had issued is accounted for
(`accounted_of_issued`). So is one that was read, if everything is in scope there
(`accounted_of_read`).
-/

namespace Offload

namespace Context

variable {ctx ctx' : Context} {vs : List ValueRef}

/-- A handle that names a value. -/
def HasValue (ctx : Context) (v : ValueRef) : Prop := v.index < ctx.values.size

/-- No operand is a handle that names nothing. -/
def Settled (ctx : Context) : Prop := ∀ o, ∀ v ∈ ctx.operandsOf o, ctx.HasValue v

/-- The invariant of the arena: everything is linked as it should be, values have the types that
    are given where they are defined, and operands are values. -/
structure Accounted (ctx : Context) : Prop extends ctx.Sound where
  typed : ctx.Typed
  operand : ctx.Settled

/-! ## What changes do to values -/

/-- The values are as before, and so is what rows say of them. -/
structure SameValues (ctx ctx' : Context) : Prop where
  values : ctx'.values = ctx.values
  operands : ctx'.operandsOf = ctx.operandsOf
  resultTypes : ctx'.resultTypesOf = ctx.resultTypesOf
  argTypes : ctx'.argTypesOf = ctx.argTypesOf

theorem InPlace.sameValues (h : ctx.InPlace ctx') (hoperands : ctx'.operandsOf = ctx.operandsOf) :
    ctx.SameValues ctx' :=
  ⟨h.values, hoperands, h.readOp _ _ fun _ => rfl, h.readBlock _ _ fun _ => rfl⟩

/-- What is put into a block or taken out of it keeps its operands. -/
theorem Relisted.sameValues (h : ctx.Relisted ctx') : ctx.SameValues ctx' :=
  h.inPlace.sameValues h.operands

theorem sameValues_addRegion {location : Location} {blocks : List BlockRef} :
    ctx.SameValues (ctx.addRegion location blocks).1 where
  values := by rw [addRegion, foldl_modifyBlock]
  operands := by
    funext o
    rw [operandsOf, readOp_addRegion]
  resultTypes := by
    funext o
    rw [resultTypesOf, readOp_addRegion]
  argTypes := by
    funext b
    rw [argTypesOf, readBlock_addRegion]
    split <;> rfl

/-- Another value for a value: its slots are filled with the new one. -/
theorem Coherent.replaceAllUses_cases (hc : ctx.Coherent) {old new : ValueRef}
    (hrun : ctx.replaceAllUses old new = .ok ctx') :
    ctx' = ctx ∨ ctx.InPlace ctx' ∧ ∀ o i, (ctx'.operandsOf o)[i]? =
      if ⟨o, i⟩ ∈ ctx.uses.get old then some new else (ctx.operandsOf o)[i]? := by
  by_cases hne : old = new
  · rw [Context.replaceAllUses, if_pos hne] at hrun
    exact .inl (Outcome.pure_eq_ok.1 hrun).symm
  · obtain ⟨_, hrun', hin, -, -, -, hslots, -⟩ := hc.replaceAllUses_slots hne
    obtain rfl := Except.ok.inj (hrun'.symm.trans hrun)
    exact .inr ⟨hin, hslots⟩

/-- A change, with the values that it is given to be operands. -/
inductive Takes (ctx : Context) : List ValueRef → Context → Prop
  | createOp {blueprint : Blueprint} {ctx' : Context} {o : OpRef}
      (run : ctx.createOp blueprint = .ok (ctx', o)) : Takes ctx blueprint.operands ctx'
  | createBlock {location : Location} {argTypes : List TypeRef} {ops : List OpRef}
      {ctx' : Context} {b : BlockRef} (step : ctx.Step ctx')
      (run : ctx.createBlock location argTypes ops = .ok (ctx', b)) : Takes ctx [] ctx'
  | replaceAllUses {old new : ValueRef} {ctx' : Context}
      (run : ctx.replaceAllUses old new = .ok ctx') : Takes ctx [new] ctx'
  | cloneOp {o copy : OpRef} {map map' : ValueMap} {ctx' : Context}
      (run : ctx.cloneOp o map = .ok (ctx', map', copy)) :
      Takes ctx (map.entries.map Prod.snd) ctx'
  | other {ctx' : Context} (step : ctx.Step ctx') (same : ctx.SameValues ctx') : Takes ctx [] ctx'

theorem Takes.step : ctx.Takes vs ctx' → ctx.Step ctx'
  | .createOp run => .createOp run
  | .createBlock step _ => step
  | .replaceAllUses run => .replaceAllUses run
  | .cloneOp run => .cloneOp run
  | .other step _ => step

/-- Every change is one of these: three make values or are given some, one makes arguments of a
    block, and all others leave values alone. -/
theorem Step.takes (hc : ctx.Coherent) (hstep : ctx.Step ctx') : ∃ vs, ctx.Takes vs ctx' := by
  have hother (same : ctx.SameValues ctx') : ∃ vs, ctx.Takes vs ctx' := ⟨[], .other hstep same⟩
  cases hstep with
  | createOp run => exact ⟨_, .createOp run⟩
  | createBlock free nodup run => exact ⟨_, .createBlock (.createBlock free nodup run) run⟩
  | replaceAllUses run => exact ⟨_, .replaceAllUses run⟩
  | cloneOp run => exact ⟨_, .cloneOp run⟩
  | createRegion run =>
    obtain rfl := eq_addRegion_of_createRegion run
    exact hother sameValues_addRegion
  | pushOp _ run => exact hother (pushOp_put hc run).relisted.sameValues
  | insertOpAt _ run => exact hother (insertOpAt_put hc run).relisted.sameValues
  | insertOpBefore _ run =>
    obtain ⟨_, -, run⟩ := insertOpBefore_eq_ok.1 run
    exact hother (insertOpAt_put hc run).relisted.sameValues
  | moveOpBefore _ run =>
    obtain ⟨b, _, _, -, -, -, hput⟩ := moveOpBefore_put hc run
    exact hother hput.relisted.sameValues
  | detachOp run =>
    obtain ⟨-, rfl⟩ := (detachOp_eq_ok hc).1 run
    exact hother relisted_detached.sameValues
  | removeOpFromBlock run =>
    obtain ⟨-, -, rfl⟩ := removeOpFromBlock_eq_ok.1 run
    refine hother ?_
    split
    · exact relisted_relist.sameValues
    · exact InPlace.sameValues (.modifyBlock _ _ fun _ => rfl) rfl
  | eraseOp run =>
    obtain ⟨-, -, _, -, -, -, hm⟩ := hc.eraseOp_spec run
    exact hother (hm.inPlace.sameValues hm.operands)
  | internType node => exact hother ⟨rfl, rfl, rfl, rfl⟩
  | internPath path => exact hother ⟨rfl, rfl, rfl, rfl⟩
  | internSymbols names => exact hother ⟨rfl, rfl, rfl, rfl⟩
  | setAttribute o key a =>
    have hread {α : Type} (f : Operation → α) (default : α)
        (hf : ∀ row as, f { row with attributes := as } = f row) :
        (ctx.setAttribute o key a).readOp f default = ctx.readOp f default :=
      readOp_setAttribute f default hf o key a
    exact hother ⟨rfl, hread _ _ fun _ _ => rfl, hread _ _ fun _ _ => rfl, rfl⟩

/-! ## The types of values -/

theorem frame_typed : Clone.Frame fun ctx ctx' => ctx.Typed → ctx'.Typed where
  refl _ := id
  trans h₁ h₂ := h₂ ∘ h₁
  addBlock _ location argTypes h := h.addBlock location argTypes
  append _ b o h := h.append b o
  addRegion _ location blocks h := h.addRegion location blocks
  addOp _ blueprint h := h.addOp blueprint

/-- No change takes the type of a value from it. -/
theorem Takes.typed (hc : ctx.Coherent) (h : ctx.Typed) (hstep : ctx.Takes vs ctx') :
    ctx'.Typed := by
  cases hstep with
  | @createOp blueprint _ _ run =>
    obtain rfl := eq_addOp_of_createOp run
    exact h.addOp blueprint
  | @createBlock location argTypes _ _ _ step run =>
    obtain rfl := eq_addBlock_of_createBlock run
    exact h.addBlock location argTypes
  | cloneOp run => exact frame_typed.cloneOp run h
  | other step same => exact h.congr same.values same.resultTypes same.argTypes
  | replaceAllUses run =>
    obtain rfl | ⟨hin, -⟩ := hc.replaceAllUses_cases run
    · exact h
    · exact h.congr hin.values (hin.readOp _ _ fun _ => rfl) (hin.readBlock _ _ fun _ => rfl)

/-- The values of every reachable context have the types that they are given. -/
theorem Reachable.typed (h : ctx.Reachable) : ctx.Typed := by
  induction h with
  | refl => exact typed_empty
  | tail hreach hstep ih =>
    have hc := (Reachable.sound hreach).coherent
    obtain ⟨vs, htakes⟩ := hstep.takes hc
    exact htakes.typed hc ih

/-! ## Operands that are values -/

/-- Copying takes no value away. -/
theorem frame_hasValue : Clone.Frame fun ctx ctx' => ∀ v, ctx.HasValue v → ctx'.HasValue v where
  refl _ _ := id
  trans h₁ h₂ v := h₂ v ∘ h₁ v
  addBlock _ _ _ _ h := h.trans_le ((Nat.le_add_right ..).trans_eq size_values_addBlock.symm)
  append _ _ _ _ := id
  addRegion _ _ _ _ h := by rwa [HasValue, addRegion, foldl_modifyBlock]
  addOp _ _ _ h := h.trans_le ((Nat.le_add_right ..).trans_eq size_values_addOp.symm)

theorem Settled.addOp (h : ctx.Settled) {blueprint : Blueprint}
    (hb : ∀ v ∈ blueprint.operands, ctx.HasValue v) : (ctx.addOp blueprint).1.Settled := by
  intro o v hv
  refine frame_hasValue.addOp ctx blueprint v ?_
  rw [operandsOf, readOp_addOp] at hv
  split at hv
  · exact hb v hv
  · exact h o v hv

theorem Settled.addBlock (h : ctx.Settled) {location : Location} {argTypes : List TypeRef}
    {ops : List OpRef} : (ctx.addBlock location argTypes ops).1.Settled := by
  intro o v hv
  rw [HasValue, size_values_addBlock]
  refine (h o v ?_).trans_le (Nat.le_add_right ..)
  rw [operandsOf, readOp_addBlock] at hv
  split at hv <;> exact hv

theorem Settled.congr (h : ctx.Settled) (hoperands : ctx'.operandsOf = ctx.operandsOf)
    (hvalues : ∀ v, ctx.HasValue v → ctx'.HasValue v) : ctx'.Settled := by
  intro o v hv
  rw [hoperands] at hv
  exact hvalues v (h o v hv)

end Context

namespace Clone

open Context

/-- Operands are values, and what the map has for others are values. -/
structure Settled (s : Cloning) : Prop where
  operand : s.context.Settled
  mapped : ∀ v, s.map.apply v = v ∨ s.context.HasValue (s.map.apply v)

variable {s s' : Cloning}

theorem Settled.apply (h : Settled s) {v : ValueRef} (hv : s.context.HasValue v) :
    s.context.HasValue (s.map.apply v) := by
  obtain heq | hw := h.mapped v
  · rwa [heq]
  · exact hw

/-- The values that a row is given are issued, and mapped to. -/
theorem Settled.record (h : Settled s) {ctx : Context} (hctx : ctx.Settled) {n : Nat}
    (hsize : ctx.values.size = s.context.values.size + n) (vs : List ValueRef) :
    Settled { context := ctx, map := s.map.insertAll vs (s.context.nextValues n) } where
  operand := hctx
  mapped v := by
    obtain heq | hnew := s.map.apply_insertAll_cases v vs (s.context.nextValues n)
    · rw [heq]
      exact (h.mapped v).imp_right fun hw => hw.trans_le (hsize ▸ Nat.le_add_right ..)
    · refine .inr ?_
      rw [HasValue, hsize]
      exact (mem_nextValues.1 hnew).2

theorem mapM_settled {α β : Type} {f : α → CloneM β} {xs : List α} {ys : List β}
    (hf : ∀ x s y s', (f x).run s = .ok (y, s') → Settled s → Settled s')
    (hrun : (xs.mapM f).run s = .ok (ys, s')) (h : Settled s) : Settled s' := by
  induction xs generalizing s ys with
  | nil =>
    simp only [List.mapM_nil, StateT.run_pure, Outcome.pure_eq_ok, Prod.mk.injEq] at hrun
    exact hrun.2 ▸ h
  | cons x xs ih =>
    obtain ⟨y, s₁, ys, hy, hys, -⟩ := run_mapM_cons hrun
    exact ih hys (hf x s y s₁ hy h)

section Op

variable {op : OpRef → CloneM OpRef}
  (hop : ∀ o s copy s', (op o).run s = .ok (copy, s') → Settled s → Settled s')

include hop

theorem fill_settled {copy : BlockRef} {os : List OpRef}
    (hrun : (forIn os PUnit.unit fun o _ => do
          let o' ← op o
          onContext fun ctx => (ctx.append copy o', ())
          pure (ForInStep.yield PUnit.unit) : CloneM PUnit).run s = .ok (PUnit.unit, s'))
    (h : Settled s) : Settled s' := by
  induction os generalizing s with
  | nil =>
    simp only [List.forIn_nil, StateT.run_pure, Outcome.pure_eq_ok, Prod.mk.injEq] at hrun
    exact hrun.2 ▸ h
  | cons o os ih =>
    obtain ⟨o', s₁, ho, hrest⟩ := fill_cons hrun
    have h₁ := hop o s o' s₁ ho h
    refine ih hrest ⟨h₁.operand.congr ?_ fun _ => id, h₁.mapped⟩
    exact (relisted_relist (g := (· ++ [o']))).operands

theorem block_settled {b copy : BlockRef} (hrun : (block op b).run s = .ok (copy, s'))
    (h : Settled s) : Settled s' := by
  obtain ⟨row, -, -, hloop⟩ := block_eq_ok hrun
  exact fill_settled hop hloop (h.record h.operand.addBlock size_values_addBlock _)

theorem region_settled {r copy : RegionRef} (hrun : (region op r).run s = .ok (copy, s'))
    (h : Settled s) : Settled s' := by
  obtain ⟨row, blocks, s₁, -, hblocks, -, rfl⟩ := region_eq_ok hrun
  have h₁ := mapM_settled (fun _ _ _ _ => block_settled hop) hblocks h
  have hvalues := frame_hasValue.addRegion s₁.context row.location blocks
  exact ⟨h₁.operand.congr sameValues_addRegion.operands hvalues,
    fun v => (h₁.mapped v).imp_right (hvalues _)⟩

end Op

theorem opWithin_settled {n : Nat} {o copy : OpRef} (hrun : (opWithin n o).run s = .ok (copy, s'))
    (h : Settled s) : Settled s' := by
  induction n generalizing o s copy s' with
  | zero => simp [opWithin] at hrun
  | succ n ih =>
    obtain ⟨row, regions, s₁, hrow, hregions, -, rfl⟩ := opWithin_succ_eq_ok hrun
    have h₁ := mapM_settled (fun _ _ _ _ => region_settled fun _ _ _ _ hrun => ih hrun) hregions h
    have hvalues := frame_hasValue.mapM
      (fun _ _ _ _ => frame_hasValue.region fun _ _ _ _ => frame_hasValue.opWithin) hregions
    refine h₁.record (h₁.operand.addOp fun v hv => ?_) size_values_addOp _
    -- the operands are mapped before anything nested in the operation is
    obtain ⟨w, hw, rfl⟩ := List.mem_map.1 hv
    refine hvalues _ (h.apply (h.operand o w ?_))
    rwa [operandsOf, readOp_of_op hrow]

end Clone

namespace Context

variable {ctx ctx' : Context} {vs : List ValueRef}

/-- What a copy takes is a value, if this is so for what it is a copy of and for the map. -/
theorem Settled.cloneOp (h : ctx.Settled) {o copy : OpRef} {map map' : ValueMap}
    (hmap : ∀ v ∈ map.entries.map Prod.snd, ctx.HasValue v)
    (hrun : ctx.cloneOp o map = .ok (ctx', map', copy)) : ctx'.Settled := by
  simp only [Context.cloneOp, Outcome.bind_eq_ok, Outcome.pure_eq_ok, Prod.exists,
    Prod.mk.injEq] at hrun
  obtain ⟨copy, s', hrun, rfl, rfl, rfl⟩ := hrun
  exact (Clone.opWithin_settled hrun
    ⟨h, fun v => ValueMap.apply_cases.imp_right (hmap _)⟩).operand

/-- What is given to be an operand is a value. -/
theorem Takes.settled (h : ctx.Settled) (hc : ctx.Coherent)
    (hvs : ∀ v ∈ vs, ctx.HasValue v) (hstep : ctx.Takes vs ctx') : ctx'.Settled := by
  cases hstep with
  | createOp run =>
    obtain rfl := eq_addOp_of_createOp run
    exact h.addOp hvs
  | createBlock step run =>
    obtain rfl := eq_addBlock_of_createBlock run
    exact h.addBlock
  | cloneOp run => exact h.cloneOp hvs run
  | other step same => exact h.congr same.operands fun v hv => by rwa [HasValue, same.values]
  | replaceAllUses run =>
    obtain rfl | ⟨hin, hslots⟩ := hc.replaceAllUses_cases run
    · exact h
    intro o v hv
    rw [HasValue, hin.values]
    obtain ⟨i, hi⟩ := List.mem_iff_getElem?.1 hv
    rw [hslots] at hi
    split at hi
    · exact Option.some.inj hi ▸ hvs _ List.mem_cons_self
    · exact h o v (List.mem_of_getElem? hi)

/-! ## Runs -/

/-- What is given to be an operand is a value: the invariant is kept. -/
theorem Takes.accounted (h : ctx.Accounted) (hvs : ∀ v ∈ vs, ctx.HasValue v)
    (hstep : ctx.Takes vs ctx') : ctx'.Accounted where
  toSound := hstep.step.sound h.toSound
  typed := hstep.typed h.coherent h.typed
  operand := hstep.settled h.operand h.coherent hvs

/-- A change by a call with handles that the context has issued. -/
def Issued (ctx ctx' : Context) : Prop := ∃ vs, ctx.Takes vs ctx' ∧ ∀ v ∈ vs, ctx.HasValue v

/-- The invariant holds after every run of calls with handles that were issued. -/
theorem accounted_of_issued (h : Relation.ReflTransGen Issued empty ctx) : ctx.Accounted := by
  induction h with
  | refl =>
    refine ⟨sound_empty, typed_empty, fun o v hv => ?_⟩
    rw [operandsOf, readOp_of_not_hasOp (Nat.not_lt_zero _)] at hv
    cases hv
  | tail _ hstep ih =>
    obtain ⟨vs, htakes, hvs⟩ := hstep
    exact htakes.accounted ih hvs

/-- A program that was read is accounted for if the check finds nothing. -/
theorem accounted_of_read {path text : String} {root : OpRef}
    (hread : Context.empty.read path text = (.ok root, ctx))
    (hcheck : ctx.checkScoping root = .ok []) : ctx.Accounted := by
  obtain ⟨hsound, hroot, -, -⟩ := Build.read_built hread
  refine ⟨hsound, (Build.read_fresh hread).typed, fun p v hv => ?_⟩
  have hp : ctx.HasOp p := by
    by_contra hn
    rw [operandsOf, readOp_of_not_hasOp hn] at hv
    cases hv
  obtain ⟨w, -, hw⟩ :=
    (hsound.checkScoping_eq_nil hroot).1 hcheck p (Build.read_within hread hp) v hv
  cases hsource : ctx.sourceOf v with
  | none =>
    rw [hsource] at hw
    exact hw.elim
  | some source => exact index_lt_of_sourceOf hsource

end Context

end Offload
