import Offload.Proofs.Ir.Cloning
import Offload.Proofs.Ir.Evolution

/-!
# The interface that changes contexts

`Mutation` lists the ways in which a context may be changed from outside, without a
condition on when. Among them there are changes that break the agreement of the tables,
such as to write to the row of an operation. None brings back what was erased
(`Mutations.keepsErased`).
-/

namespace Offload.Context

variable {ctx ctx₁ ctx' : Context} {o : OpRef}

/-- A call that changes a context. -/
inductive Mutation (ctx : Context) : Context → Prop
  | createOp {blueprint : Blueprint} {ctx' : Context} {o : OpRef}
      (run : ctx.createOp blueprint = .ok (ctx', o)) : Mutation ctx ctx'
  | createBlock {location : Location} {argTypes : List TypeRef} {ops : List OpRef}
      {ctx' : Context} {b : BlockRef}
      (run : ctx.createBlock location argTypes ops = .ok (ctx', b)) : Mutation ctx ctx'
  | createRegion {location : Location} {blocks : List BlockRef} {ctx' : Context} {r : RegionRef}
      (run : ctx.createRegion location blocks = .ok (ctx', r)) : Mutation ctx ctx'
  | pushOp {b : BlockRef} {o : OpRef} {ctx' : Context}
      (run : ctx.pushOp b o = .ok ctx') : Mutation ctx ctx'
  | insertOpAt {b : BlockRef} {position : Nat} {o : OpRef} {ctx' : Context}
      (run : ctx.insertOpAt b position o = .ok ctx') : Mutation ctx ctx'
  | insertOpBefore {b : BlockRef} {anchor o : OpRef} {ctx' : Context}
      (run : ctx.insertOpBefore b anchor o = .ok ctx') : Mutation ctx ctx'
  | moveOpBefore {o anchor : OpRef} {ctx' : Context}
      (run : ctx.moveOpBefore o anchor = .ok ctx') : Mutation ctx ctx'
  | detachOp {o : OpRef} {ctx' : Context} (run : ctx.detachOp o = .ok ctx') : Mutation ctx ctx'
  | removeOpFromBlock {b : BlockRef} {o : OpRef} {ctx' : Context}
      (run : ctx.removeOpFromBlock b o = .ok ctx') : Mutation ctx ctx'
  | eraseOp {o : OpRef} {ctx' : Context} (run : ctx.eraseOp o = .ok ctx') : Mutation ctx ctx'
  | replaceAllUses {old new : ValueRef} {ctx' : Context}
      (run : ctx.replaceAllUses old new = .ok ctx') : Mutation ctx ctx'
  | cloneOp {o copy : OpRef} {map map' : ValueMap} {ctx' : Context}
      (run : ctx.cloneOp o map = .ok (ctx', map', copy)) : Mutation ctx ctx'
  /-- The row of an operation is written to. Whether it has been erased and what its
      results are is not told by what can be written. -/
  | write (o : OpRef) (change : Operation → Operation)
      (mark : ∀ row, (change row).erased = row.erased)
      (results : ∀ row, (change row).results = row.results) : Mutation ctx (ctx.modifyOp o change)
  | internType (node : TypeNode) : Mutation ctx (ctx.internType node).1
  | internPath (path : String) : Mutation ctx (ctx.internPath path).1
  | internSymbols (names : List String) : Mutation ctx (ctx.internSymbols names)

/-- Calls that change a context, one after the other. -/
def Mutations : Context → Context → Prop := Relation.ReflTransGen Mutation

/-! ## What was erased -/

/-- What was erased is so still. -/
def KeepsErased (ctx ctx' : Context) : Prop := ∀ o, ctx.isErased o → ctx'.isErased o

theorem KeepsErased.of_eq (h : ctx'.isErased = ctx.isErased) : ctx.KeepsErased ctx' :=
  fun o ho => (congrFun h o).trans ho

theorem KeepsErased.trans (h₁ : ctx.KeepsErased ctx₁) (h₂ : ctx₁.KeepsErased ctx') :
    ctx.KeepsErased ctx' := fun o ho => h₂ o (h₁ o ho)

theorem isErased_modifyOp {g : Operation → Operation} (hg : ∀ row, (g row).erased = row.erased) :
    (ctx.modifyOp o g).isErased = ctx.isErased := by
  funext p
  rw [isErased_eq_readOp, isErased_eq_readOp, readOp_modifyOp,
    show (·.erased) ∘ g = (·.erased) from funext hg, ite_self]

theorem isErased_modifyBlock {b : BlockRef} {g : Block → Block} :
    (ctx.modifyBlock b g).isErased = ctx.isErased := rfl

theorem isErased_addBlock {location : Location} {argTypes : List TypeRef} {ops : List OpRef} :
    (ctx.addBlock location argTypes ops).1.isErased = ctx.isErased := by
  funext p
  rw [isErased_eq_readOp, isErased_eq_readOp, readOp_addBlock]
  exact ite_self _

theorem isErased_addRegion {location : Location} {blocks : List BlockRef} :
    (ctx.addRegion location blocks).1.isErased = ctx.isErased := by
  funext p
  rw [isErased_eq_readOp, isErased_eq_readOp, readOp_addRegion]

theorem isErased_append {b : BlockRef} : (ctx.append b o).isErased = ctx.isErased :=
  isErased_modifyBlock.trans (isErased_modifyOp fun _ => rfl)

theorem keepsErased_addOp {blueprint : Blueprint} : ctx.KeepsErased (ctx.addOp blueprint).1 := by
  intro p hp
  have hne : p ≠ ⟨ctx.ops.size⟩ := by
    rintro rfl
    exact not_hasOp_size (hasOp_of_isErased hp)
  rw [isErased_eq_readOp] at hp ⊢
  rwa [readOp_addOp, if_neg hne]

theorem frame_keepsErased : Clone.Frame KeepsErased where
  refl _ _ := id
  trans := KeepsErased.trans
  addBlock _ _ _ := .of_eq isErased_addBlock
  append _ _ _ := .of_eq isErased_append
  addRegion _ _ _ := .of_eq isErased_addRegion
  addOp _ _ := keepsErased_addOp

theorem isErased_redirect {old new : ValueRef} {us : List Use}
    (hrun : redirect old new ctx us = .ok ctx') : ctx'.isErased = ctx.isErased := by
  induction us generalizing ctx with
  | nil =>
    obtain rfl := Outcome.pure_eq_ok.1 hrun
    rfl
  | cons u us ih =>
    obtain ⟨row, -, hrun⟩ := Outcome.bind_eq_ok.1 hrun
    obtain ⟨held, -, hrun⟩ := Outcome.bind_eq_ok.1 hrun
    split at hrun
    · simp at hrun
    · exact (ih hrun).trans (isErased_modifyOp fun _ => rfl)

theorem isErased_removeOpFromBlock {b : BlockRef} (hrun : ctx.removeOpFromBlock b o = .ok ctx') :
    ctx'.isErased = ctx.isErased := by
  obtain ⟨block, -, hrun⟩ := Outcome.bind_eq_ok.1 hrun
  obtain ⟨row, -, hrun⟩ := Outcome.bind_eq_ok.1 hrun
  obtain rfl := Outcome.pure_eq_ok.1 hrun
  split
  · exact isErased_modifyOp fun _ => rfl
  · rfl

theorem isErased_detachOp (hrun : ctx.detachOp o = .ok ctx') : ctx'.isErased = ctx.isErased := by
  obtain ⟨row, -, hrun⟩ := Outcome.bind_eq_ok.1 hrun
  split at hrun
  · exact isErased_removeOpFromBlock hrun
  · obtain rfl := Outcome.pure_eq_ok.1 hrun
    rfl

theorem isErased_insertOpAt {b : BlockRef} {position : Nat}
    (hrun : ctx.insertOpAt b position o = .ok ctx') : ctx'.isErased = ctx.isErased := by
  obtain ⟨-, -, -, -, rfl⟩ := insertOpAt_eq_ok.1 hrun
  exact relisted_relist.erased

theorem isErased_insertOpBefore {b : BlockRef} {anchor : OpRef}
    (hrun : ctx.insertOpBefore b anchor o = .ok ctx') : ctx'.isErased = ctx.isErased := by
  obtain ⟨block, -, hrun⟩ := Outcome.bind_eq_ok.1 hrun
  split at hrun
  · exact isErased_insertOpAt hrun
  · simp at hrun

theorem keepsErased_eraseOp (hrun : ctx.eraseOp o = .ok ctx') : ctx.KeepsErased ctx' := by
  intro p hp
  obtain ⟨row, -, hrun⟩ := Outcome.bind_eq_ok.1 hrun
  split at hrun
  · simp at hrun
  · simp only [Outcome.bind_eq_ok, Outcome.pure_eq_ok] at hrun
    obtain ⟨tree, -, ctx₁, hdrop, ⟨⟩, -, rfl⟩ := hrun
    obtain ⟨hex, uses, rfl, -⟩ := dropUsesOf_eq_ok hdrop
    let dropped : Context := { ctx with uses }
    have hmark := @isErased_foldl_mark dropped tree hex p
    exact hmark.2 (.inr hp)

theorem Mutation.keepsErased (h : ctx.Mutation ctx') : ctx.KeepsErased ctx' := by
  cases h with
  | createOp run =>
    obtain rfl := eq_addOp_of_createOp run
    exact keepsErased_addOp
  | createBlock run =>
    obtain rfl := eq_addBlock_of_createBlock run
    exact .of_eq isErased_addBlock
  | createRegion run =>
    obtain rfl := eq_addRegion_of_createRegion run
    exact .of_eq isErased_addRegion
  | pushOp run =>
    obtain ⟨-, -, -, rfl⟩ := pushOp_eq_ok.1 run
    exact .of_eq relisted_relist.erased
  | insertOpAt run => exact .of_eq (isErased_insertOpAt run)
  | insertOpBefore run => exact .of_eq (isErased_insertOpBefore run)
  | moveOpBefore run =>
    obtain ⟨row, -, run⟩ := Outcome.bind_eq_ok.1 run
    split at run
    · obtain ⟨ctx₁, hdetach, hinsert⟩ := Outcome.bind_eq_ok.1 run
      exact .of_eq ((isErased_insertOpBefore hinsert).trans (isErased_detachOp hdetach))
    · simp at run
  | detachOp run => exact .of_eq (isErased_detachOp run)
  | removeOpFromBlock run => exact .of_eq (isErased_removeOpFromBlock run)
  | eraseOp run => exact keepsErased_eraseOp run
  | replaceAllUses run =>
    rw [Context.replaceAllUses] at run
    split at run
    · obtain rfl := Outcome.pure_eq_ok.1 run
      exact .of_eq rfl
    · have herased := isErased_redirect run
      exact .of_eq herased
  | cloneOp run => exact frame_keepsErased.cloneOp run
  | write o change mark _ => exact .of_eq (isErased_modifyOp mark)
  | internType node => exact fun _ => id
  | internPath path => exact fun _ => id
  | internSymbols names => exact fun _ => id

/-- Whatever is done to a context, an operation that was erased stays so. -/
theorem Mutations.keepsErased (h : ctx.Mutations ctx') : ctx.KeepsErased ctx' := by
  induction h with
  | refl => exact fun _ => id
  | tail _ hstep ih => exact ih.trans hstep.keepsErased

end Offload.Context
