import Offload.Proofs.Ir.Mutation
import Offload.Proofs.Ir.Reachable

/-!
# Where values come from

A value records where it comes from, and what has it as a result or an argument lists
it there (`Sourced`). Both are written once, when the value is made, and can be
written by nobody later. So they agree in every context, whatever was done to it
(`Changes.sourced`), unlike the links between operations, blocks and regions, which may
have been written to past the calls that keep them in step.
-/

namespace Offload.Context

variable {ctx ctx' : Context} {o : OpRef}

/-- A value stands at the place that it records, and at no other. -/
def Sourced (ctx : Context) : Prop := ∀ d v, ctx.Defines d v ↔ ctx.sourceOf v = some d

theorem sourced_empty : empty.Sourced := fun d v => by
  cases d <;> simp [Defines, results, args, sourceOf, empty]

/-! ## What changes -/

theorem Sourced.addOp (h : ctx.Sourced) (blueprint : Blueprint) :
    (ctx.addOp blueprint).1.Sourced := fun d v => by
  cases d with
  | result o n => exact result_iff_addOp (fun o n v => h (.result o n) v) o n v
  | argument b n =>
    rw [Defines, args_eq_readBlock, readBlock_addOp, ← args_eq_readBlock, sourceOf_addOp,
      ← h (.argument b n)]
    simp [Defines]

theorem Sourced.addBlock (h : ctx.Sourced) (location : Location) (argTypes : List TypeRef)
    (ops : List OpRef) : (ctx.addBlock location argTypes ops).1.Sourced := fun d v => by
  cases d with
  | result o n =>
    rw [Defines, results_eq_readOp, readOp_addBlock, ite_self, ← results_eq_readOp,
      sourceOf_addBlock, ← h (.result o n)]
    simp [Defines]
  | argument b n => exact argument_iff_addBlock (fun b n v => h (.argument b n) v) b n v

/-- Nothing is told of values but by results, arguments and sources. -/
theorem Sourced.congr (h : ctx.Sourced) (hresults : ctx'.results = ctx.results)
    (hargs : ctx'.args = ctx.args) (hsource : ctx'.sourceOf = ctx.sourceOf) : ctx'.Sourced :=
  fun d v => by
    rw [hsource, ← h d v]
    cases d with
    | result o n => rw [Defines, Defines, hresults]
    | argument b n => rw [Defines, Defines, hargs]

theorem InPlace.sourced (hin : ctx.InPlace ctx') (h : ctx.Sourced) : ctx'.Sourced :=
  h.congr hin.results hin.args hin.sourceOf

theorem Sourced.addRegion (h : ctx.Sourced) (location : Location) (blocks : List BlockRef) :
    (ctx.addRegion location blocks).1.Sourced := by
  refine h.congr ?_ ?_ (funext sourceOf_addRegion)
  · funext o
    rw [results_eq_readOp, readOp_addRegion, results_eq_readOp]
  · funext b
    rw [args_eq_readBlock, readBlock_addRegion, ite_self, args_eq_readBlock]

/-! ## What stays

None of the following looks at whether the tables agree. -/

theorem inPlace_append {b : BlockRef} : ctx.InPlace (ctx.append b o) := by
  have hplaced :
      ctx.InPlace (ctx.modifyOp o fun operation => { operation with parent := some b }) :=
    .modifyOp _ _ fun _ => rfl
  exact hplaced.trans (.modifyBlock _ _ fun _ => rfl)

theorem inPlace_redirect {old new : ValueRef} {us : List Use}
    (hrun : redirect old new ctx us = .ok ctx') : ctx.InPlace ctx' := by
  induction us generalizing ctx with
  | nil =>
    obtain rfl := Outcome.pure_eq_ok.1 hrun
    exact .refl ctx
  | cons u us ih =>
    obtain ⟨row, -, hrun⟩ := Outcome.bind_eq_ok.1 hrun
    obtain ⟨held, -, hrun⟩ := Outcome.bind_eq_ok.1 hrun
    split at hrun
    · simp at hrun
    · have hwritten : ctx.InPlace (ctx.modifyOp u.user fun operation =>
          { operation with operands := operation.operands.set u.slot new }) :=
        .modifyOp _ _ fun _ => rfl
      have hrest := ih hrun
      exact hwritten.trans ⟨hrest.1, hrest.2, hrest.3, hrest.4, hrest.5, hrest.6⟩

theorem inPlace_removeOpFromBlock {b : BlockRef} (hrun : ctx.removeOpFromBlock b o = .ok ctx') :
    ctx.InPlace ctx' := by
  obtain ⟨-, -, rfl⟩ := removeOpFromBlock_eq_ok.1 hrun
  split
  · exact relisted_relist.inPlace
  · exact .modifyBlock _ _ fun _ => rfl

theorem inPlace_detachOp (hrun : ctx.detachOp o = .ok ctx') : ctx.InPlace ctx' := by
  obtain ⟨row, -, hrun⟩ := Outcome.bind_eq_ok.1 hrun
  split at hrun
  · exact inPlace_removeOpFromBlock hrun
  · exact Outcome.pure_eq_ok.1 hrun ▸ .refl ctx

theorem inPlace_insertOpAt {b : BlockRef} {position : Nat}
    (hrun : ctx.insertOpAt b position o = .ok ctx') : ctx.InPlace ctx' := by
  obtain ⟨-, -, -, -, rfl⟩ := insertOpAt_eq_ok.1 hrun
  exact relisted_relist.inPlace

theorem inPlace_insertOpBefore {b : BlockRef} {anchor : OpRef}
    (hrun : ctx.insertOpBefore b anchor o = .ok ctx') : ctx.InPlace ctx' := by
  obtain ⟨_, -, hrun⟩ := insertOpBefore_eq_ok.1 hrun
  exact inPlace_insertOpAt hrun

theorem inPlace_eraseOp (hrun : ctx.eraseOp o = .ok ctx') : ctx.InPlace ctx' := by
  obtain ⟨row, -, hrun⟩ := Outcome.bind_eq_ok.1 hrun
  split at hrun
  · simp at hrun
  · simp only [Outcome.bind_eq_ok, Outcome.pure_eq_ok] at hrun
    obtain ⟨tree, -, ctx₁, hdrop, ⟨⟩, -, rfl⟩ := hrun
    obtain ⟨-, uses, rfl, -⟩ := dropUsesOf_eq_ok hdrop
    have hmarked := inPlace_foldl_mark { ctx with uses } tree
    exact ⟨hmarked.1, hmarked.2, hmarked.3, hmarked.4, hmarked.5, hmarked.6⟩

/-! ## Every call -/

theorem frame_sourced : Clone.Frame fun ctx ctx' => ctx.Sourced → ctx'.Sourced where
  refl _ := id
  trans h₁ h₂ := h₂ ∘ h₁
  addBlock _ location argTypes h := h.addBlock location argTypes []
  append _ _ _ h := inPlace_append.sourced h
  addRegion _ location blocks h := h.addRegion location blocks
  addOp _ blueprint h := h.addOp blueprint

theorem Mutation.sourced (h : ctx.Sourced) (hstep : ctx.Mutation ctx') : ctx'.Sourced := by
  cases hstep with
  | createOp run => exact eq_addOp_of_createOp run ▸ h.addOp _
  | createBlock run => exact eq_addBlock_of_createBlock run ▸ h.addBlock _ _ _
  | createRegion run => exact eq_addRegion_of_createRegion run ▸ h.addRegion _ _
  | pushOp run =>
    obtain ⟨-, -, -, rfl⟩ := pushOp_eq_ok.1 run
    exact relisted_relist.inPlace.sourced h
  | insertOpAt run => exact (inPlace_insertOpAt run).sourced h
  | insertOpBefore run => exact (inPlace_insertOpBefore run).sourced h
  | moveOpBefore run =>
    obtain ⟨row, -, run⟩ := Outcome.bind_eq_ok.1 run
    split at run
    · obtain ⟨ctx₁, hdetach, hinsert⟩ := Outcome.bind_eq_ok.1 run
      exact (inPlace_insertOpBefore hinsert).sourced ((inPlace_detachOp hdetach).sourced h)
    · simp at run
  | detachOp run => exact (inPlace_detachOp run).sourced h
  | removeOpFromBlock run => exact (inPlace_removeOpFromBlock run).sourced h
  | eraseOp run => exact (inPlace_eraseOp run).sourced h
  | replaceAllUses run =>
    rw [Context.replaceAllUses] at run
    split at run
    · exact Outcome.pure_eq_ok.1 run ▸ h
    · have hin := inPlace_redirect run
      exact InPlace.sourced ⟨hin.1, hin.2, hin.3, hin.4, hin.5, hin.6⟩ h
  | cloneOp run => exact frame_sourced.cloneOp run h
  | write o change _ hresults =>
    refine h.congr ?_ rfl rfl
    funext p
    rw [results_eq_readOp, readOp_modifyOp, show (·.results) ∘ change = (·.results) from
      funext hresults, ite_self, results_eq_readOp]
  | internType node => exact h.congr rfl rfl rfl
  | internPath path => exact h.congr rfl rfl rfl
  | internSymbols names => exact h.congr rfl rfl rfl

/-- A context is changed by a call, or the row of a block or of a region is written to. What the
    arguments of the block are is not told by what can be written. -/
inductive Change (ctx : Context) : Context → Prop
  | call {ctx' : Context} (step : ctx.Mutation ctx') : Change ctx ctx'
  | writeBlock (b : BlockRef) (change : Block → Block)
      (args : ∀ row, (change row).args = row.args) : Change ctx (ctx.modifyBlock b change)
  | writeRegion (r : RegionRef) (change : Region → Region) :
      Change ctx (ctx.modifyRegion r change)

/-- Changes, one after the other. -/
def Changes : Context → Context → Prop := Relation.ReflTransGen Change

theorem Change.sourced (h : ctx.Sourced) (hstep : ctx.Change ctx') : ctx'.Sourced := by
  cases hstep with
  | call hstep => exact hstep.sourced h
  | writeBlock b change hargs =>
    refine h.congr rfl ?_ rfl
    funext c
    rw [args_eq_readBlock, readBlock_modifyBlock, show (·.args) ∘ change = (·.args) from
      funext hargs, ite_self, args_eq_readBlock]
  | writeRegion => exact h.congr rfl rfl rfl

/-- Whatever was done, values stand where they say. -/
theorem Changes.sourced (h : empty.Changes ctx) : ctx.Sourced := by
  induction h with
  | refl => exact sourced_empty
  | tail _ hstep ih => exact hstep.sourced ih

end Offload.Context
