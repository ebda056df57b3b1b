import Mathlib.Data.List.Basic
import Offload.Ir.Edit
import Offload.Proofs.Ir.Frame

/-!
# Replacing values and erasing operations

Two changes touch the use chains. Putting a value in the place of another one
(`replaceAllUses`) changes the operand slots in the chain of the old value, which
are all the slots that hold it (`Rewired`). Erasing an operation
(`eraseOp`) drops the uses of a whole tree, and marks what is in it (`Marked`).
In a coherent context the first always succeeds, and the second succeeds iff no
result in the tree is used outside it; both leave the context coherent.
-/

namespace Offload.Context

/-! ## Replacing a value -/

/-- A value was put in the place of another one wherever that was held. -/
structure Rewired (ctx : Context) (old new : ValueRef) (ctx' : Context) : Prop where
  inPlace : ctx.InPlace ctx'
  blockOf : ctx'.blockOf = ctx.blockOf
  opsOf : ctx'.opsOf = ctx.opsOf
  erased : ctx'.isErased = ctx.isErased
  held : ∀ o, ctx'.heldBy o = (ctx.heldBy o).map fun v => if v = old then new else v
  uses : ∀ v, ctx'.uses.get v =
    if v = new then ctx.uses.get new ++ ctx.uses.get old
    else if v = old then [] else ctx.uses.get v

/-- Put a value into an operand slot, and the slot at the end of its chain. -/
def refill (ctx : Context) (u : Use) (new : ValueRef) : Context :=
  { ctx.modifyOp u.user fun row => { row with operands := row.operands.set u.slot new } with
    uses := ctx.uses.push new u }

section Refill

variable {ctx : Context} {u : Use} {old new : ValueRef}

theorem inPlace_refill : ctx.InPlace (ctx.refill u new) := by
  refine ⟨?_, rfl, rfl, rfl, rfl, rfl⟩
  simp only [refill, modifyOp]
  exact map_modify _ _ _ _ fun _ => rfl

theorem blockOf_refill : (ctx.refill u new).blockOf = ctx.blockOf := by
  funext o
  rw [blockOf, refill]
  exact (readOp_modifyOp _ _ _).trans (ite_self _)

theorem isErased_refill : (ctx.refill u new).isErased = ctx.isErased := by
  funext o
  rw [isErased_eq_readOp, isErased_eq_readOp, refill]
  exact (readOp_modifyOp _ _ _).trans (ite_self _)

theorem get_uses_refill (v : ValueRef) : (ctx.refill u new).uses.get v =
    if v = new then ctx.uses.get new ++ [u] else ctx.uses.get v := by
  rw [refill, UseTable.get_push]
  simp only [eq_comm (a := new)]
  split <;> simp [*]

theorem getElem?_operandsOf_refill (hslot : (ctx.operandsOf u.user)[u.slot]? = some old)
    (o : OpRef) (i : Nat) : ((ctx.refill u new).operandsOf o)[i]? =
      if (⟨o, i⟩ : Use) = u then some new else (ctx.operandsOf o)[i]? := by
  have hread : (ctx.refill u new).operandsOf o = if o = u.user then
      ctx.readOp (fun row => row.operands.set u.slot new) [] o else ctx.operandsOf o :=
    readOp_modifyOp _ _ _
  rw [hread]
  split
  · rename_i ho
    subst ho
    have hset : ctx.readOp (fun row => row.operands.set u.slot new) [] u.user =
        (ctx.operandsOf u.user).set u.slot new := by
      rw [operandsOf, readOp, readOp]
      cases ctx.ops[u.user.index]? <;> rfl
    obtain ⟨hlt, -⟩ := List.getElem?_eq_some_iff.1 hslot
    rw [hset, List.getElem?_set]
    by_cases hi : u.slot = i
    · subst hi
      simp [hlt]
    · have hne : (⟨u.user, i⟩ : Use) ≠ u := fun e => hi (congrArg Use.slot e).symm
      rw [if_neg hi, if_neg hne]
  · rename_i ho
    have hne : (⟨o, i⟩ : Use) ≠ u := fun e => ho (congrArg Use.user e)
    rw [if_neg hne]

theorem redirect_cons (hslot : (ctx.operandsOf u.user)[u.slot]? = some old) (us : List Use) :
    redirect old new ctx (u :: us) = redirect old new (ctx.refill u new) us := by
  have hop : ctx.HasOp u.user := by
    by_contra hn
    rw [operandsOf, readOp_of_not_hasOp hn] at hslot
    cases hslot
  obtain ⟨row, hrow⟩ := hasOp_iff.1 hop
  rw [operandsOf, readOp_of_op hrow] at hslot
  rw [redirect, hrow]
  simp only [Outcome.ok_bind, hslot, found_some, ne_eq, not_true_eq_false, if_false]
  rfl

end Refill

/-- The loop over a use chain: `us` is what is left of it. -/
theorem redirect_spec (old new : ValueRef) (ctx : Context) {us : List Use} (hnodup : us.Nodup)
    (hheld : ∀ u ∈ us, (ctx.operandsOf u.user)[u.slot]? = some old) :
    ∃ ctx', redirect old new ctx us = .ok ctx' ∧ ctx.InPlace ctx' ∧
      ctx'.blockOf = ctx.blockOf ∧ ctx'.opsOf = ctx.opsOf ∧ ctx'.isErased = ctx.isErased ∧
      (∀ o i, (ctx'.operandsOf o)[i]? =
        if ⟨o, i⟩ ∈ us then some new else (ctx.operandsOf o)[i]?) ∧
      ∀ v, ctx'.uses.get v = if v = new then ctx.uses.get new ++ us else ctx.uses.get v := by
  induction us generalizing ctx with
  | nil =>
    refine ⟨ctx, rfl, .refl ctx, rfl, rfl, rfl, fun o i => by simp, fun v => ?_⟩
    split <;> simp [*]
  | cons u us ih =>
    obtain ⟨hu, hnodup⟩ := List.nodup_cons.1 hnodup
    have hslot := hheld u List.mem_cons_self
    obtain ⟨ctx', hrun, hin, hblock, hops, herased, hoperands, huses⟩ :=
      ih (ctx.refill u new) hnodup fun w hw => by
        have hne : w ≠ u := fun e => hu (e ▸ hw)
        rw [getElem?_operandsOf_refill hslot, if_neg hne]
        exact hheld w (List.mem_cons_of_mem u hw)
    refine ⟨ctx', (redirect_cons hslot us).trans hrun, inPlace_refill.trans hin,
      hblock.trans blockOf_refill, hops, herased.trans isErased_refill, fun o i => ?_,
      fun v => ?_⟩
    · rw [hoperands, getElem?_operandsOf_refill hslot]
      simp only [List.mem_cons]
      by_cases h₁ : (⟨o, i⟩ : Use) ∈ us <;> by_cases h₂ : (⟨o, i⟩ : Use) = u <;> simp [h₁, h₂]
    · rw [huses, get_uses_refill, get_uses_refill]
      split <;> simp

/-- A use is by an operation that is not erased, and which has the value in the slot. -/
theorem Coherent.slot_of_mem_uses {ctx : Context} (h : ctx.Coherent) {v : ValueRef} {u : Use}
    (hu : u ∈ ctx.uses.get v) :
    (ctx.operandsOf u.user)[u.slot]? = some v ∧ ¬ctx.isErased u.user := by
  rw [h.uses.mem_iff, heldBy_eq] at hu
  split at hu
  · cases hu
  · exact ⟨hu, ‹_›⟩

/-- The slots that are filled when a value is replaced are those in its chain. -/
theorem Coherent.replaceAllUses_slots {ctx : Context} (h : ctx.Coherent) {old new : ValueRef}
    (hne : old ≠ new) :
    ∃ ctx', ctx.replaceAllUses old new = .ok ctx' ∧ ctx.InPlace ctx' ∧
      ctx'.blockOf = ctx.blockOf ∧ ctx'.opsOf = ctx.opsOf ∧ ctx'.isErased = ctx.isErased ∧
      (∀ o i, (ctx'.operandsOf o)[i]? =
        if ⟨o, i⟩ ∈ ctx.uses.get old then some new else (ctx.operandsOf o)[i]?) ∧
      ∀ v, ctx'.uses.get v = if v = new then ctx.uses.get new ++ ctx.uses.get old
        else if v = old then [] else ctx.uses.get v := by
  obtain ⟨ctx', hrun, hin, hblock, hops, herased, hoperands, huses⟩ :=
    redirect_spec old new { ctx with uses := ctx.uses.set old [] } (h.uses.nodup old)
      fun u hu => (h.slot_of_mem_uses hu).1
  refine ⟨ctx', ?_, ⟨hin.1, hin.2, hin.3, hin.4, hin.5, hin.6⟩, hblock, hops, herased, hoperands,
    fun v => ?_⟩
  · rw [Context.replaceAllUses, if_neg hne]
    exact hrun
  · rw [huses, UseTable.get_set, UseTable.get_set, if_neg hne]
    simp only [eq_comm (a := old)]

/-- In a coherent context a value can always be replaced. -/
theorem Coherent.replaceAllUses {ctx : Context} (h : ctx.Coherent) {old new : ValueRef}
    (hne : old ≠ new) :
    ∃ ctx', ctx.replaceAllUses old new = .ok ctx' ∧ ctx.Rewired old new ctx' := by
  obtain ⟨ctx', hrun, hin, hblock, hops, herased, hoperands, huses⟩ := h.replaceAllUses_slots hne
  refine ⟨ctx', hrun, hin, hblock, hops, herased, fun o => ?_, huses⟩
  rw [heldBy_eq, heldBy_eq, show ctx'.isErased o = ctx.isErased o from congrFun herased o]
  split
  · rfl
  · rename_i hlive
    refine List.ext_getElem? fun i => ?_
    rw [hoperands, List.getElem?_map]
    split
    · rename_i hu
      rw [(h.slot_of_mem_uses hu).1]
      simp
    · rename_i hu
      rw [h.uses.mem_iff, heldBy_eq, if_neg hlive] at hu
      cases hv : (ctx.operandsOf o)[i]? with
      | none => rfl
      | some v =>
        have hvne : v ≠ old := fun e => hu (hv.trans (congrArg some e))
        rw [Option.map_some, if_neg hvne]

/-- The chain of a value that replaces another one takes over the chain of that. -/
theorem Rewired.coherent {ctx ctx' : Context} {old new : ValueRef} (h : ctx.Coherent)
    (hne : old ≠ new) (hw : ctx.Rewired old new ctx') : ctx'.Coherent := by
  refine hw.inPlace.coherent h (by rw [hw.blockOf, hw.opsOf]; exact h.ops)
    ⟨fun v u => ?_, fun v => ?_⟩
  · have hold := h.uses.mem_iff old u
    have hnew := h.uses.mem_iff new u
    have hv := h.uses.mem_iff v u
    rw [hw.uses, hw.held, List.getElem?_map]
    cases hu : (ctx.heldBy u.user)[u.slot]? with
    | none =>
      rw [hu] at hold hnew hv
      split_ifs <;> simp [hold, hnew, hv]
    | some w =>
      rw [hu] at hold hnew hv
      simp only [Option.some.injEq] at hold hnew hv
      rw [Option.map_some, Option.some.injEq]
      split_ifs with h₁ h₂ h₃ h₄ h₅
      · simp [hold, h₂, h₁]
      · rw [List.mem_append, hold, hnew, or_iff_left h₂, h₁]
      · simp only [List.not_mem_nil, false_iff]
        exact fun e => h₁ e.symm
      · simp only [List.not_mem_nil, false_iff]
        exact fun e => h₄ (e.trans h₃)
      · rw [hv, h₅]
        exact ⟨fun e => absurd e.symm h₃, fun e => absurd e.symm h₁⟩
      · exact hv
  · rw [hw.uses]
    split_ifs
    · rw [List.nodup_append]
      refine ⟨h.uses.nodup new, h.uses.nodup old, ?_⟩
      rintro u hu _ hu' rfl
      rw [h.uses.mem_iff] at hu hu'
      exact hne (Option.some.inj (hu'.symm.trans hu))
    · exact List.nodup_nil
    · exact h.uses.nodup v

/-! ## Erasing operations -/

/-- Operations were marked as erased, and their uses dropped. -/
structure Marked (ctx : Context) (tree : List OpRef) (ctx' : Context) : Prop where
  inPlace : ctx.InPlace ctx'
  blockOf : ctx'.blockOf = ctx.blockOf
  opsOf : ctx'.opsOf = ctx.opsOf
  operands : ctx'.operandsOf = ctx.operandsOf
  erased : ∀ o, ctx'.isErased o ↔ o ∈ tree ∨ ctx.isErased o
  uses : ∀ v, ctx'.uses.get v = (ctx.uses.get v).filter (·.user ∉ tree)

/-- Operations no result of which is used outside them. -/
def Unused (ctx : Context) (tree : List OpRef) : Prop :=
  ∀ o ∈ tree, ∀ v ∈ ctx.results o, ∀ u ∈ ctx.uses.get v, u.user ∈ tree

/-- The uses of the operands of operations that exist can be dropped. -/
theorem dropUsesOf_eq_ok {ctx ctx' : Context} {os : List OpRef} :
    dropUsesOf ctx os = .ok ctx' → (∀ o ∈ os, ctx.HasOp o) ∧
      ∃ uses, ctx' = { ctx with uses } ∧ ∀ v, uses.get v = (ctx.uses.get v).filter fun u =>
        ¬(u.user ∈ os ∧ (v, u.slot) ∈ (ctx.operandsOf u.user).zipIdx) := by
  intro hrun
  induction os generalizing ctx with
  | nil => exact ⟨by simp, ctx.uses, (Outcome.pure_eq_ok.1 hrun).symm, fun v => by simp⟩
  | cons o os ih =>
    obtain ⟨row, hrow, hrun⟩ := Outcome.bind_eq_ok.1 hrun
    obtain ⟨hex, uses, rfl, huses⟩ := ih hrun
    refine ⟨List.forall_mem_cons.2 ⟨hasOp_iff.2 ⟨row, hrow⟩, hex⟩, uses, rfl, fun v => ?_⟩
    rw [huses, get_dropUses, List.filter_filter]
    refine List.filter_congr fun u _ => ?_
    have hread : ∀ p, ({ ctx with uses := dropUses ctx.uses o 0 row.operands } : Context).operandsOf
        p = ctx.operandsOf p := fun _ => rfl
    have hoperands : ctx.operandsOf o = row.operands := readOp_of_op hrow _ _
    rw [← Bool.decide_and, decide_eq_decide, hread, ← hoperands, List.mem_cons]
    by_cases ho : u.user = o
    · subst ho
      tauto
    · simp [ho]

theorem dropUsesOf_ok {ctx : Context} {os : List OpRef} (hex : ∀ o ∈ os, ctx.HasOp o) :
    ∃ ctx', dropUsesOf ctx os = .ok ctx' := by
  induction os generalizing ctx with
  | nil => exact ⟨ctx, rfl⟩
  | cons o os ih =>
    obtain ⟨row, hrow⟩ := hasOp_iff.1 (hex o List.mem_cons_self)
    obtain ⟨ctx', hrun⟩ := @ih { ctx with uses := dropUses ctx.uses o 0 row.operands }
      fun p hp => hex p (List.mem_cons_of_mem o hp)
    exact ⟨ctx', by rw [dropUsesOf, hrow]; exact hrun⟩

theorem checkUnused_eq_ok {ctx : Context} {vs : List ValueRef} :
    ctx.checkUnused vs = .ok () ↔ ∀ v ∈ vs, ctx.uses.get v = [] := by
  induction vs with
  | nil => simp [checkUnused]
  | cons v vs ih =>
    rw [checkUnused, List.forall_mem_cons, ← ih]
    cases ctx.uses.get v <;> simp

/-- The marks that are set on a list of operations. -/
theorem isErased_foldl_mark {ctx : Context} {tree : List OpRef} (hex : ∀ o ∈ tree, ctx.HasOp o)
    (o : OpRef) :
    (tree.foldl (fun ctx o => ctx.modifyOp o fun row => { row with erased := true })
      ctx).isErased o ↔ o ∈ tree ∨ ctx.isErased o := by
  rw [isErased_eq_readOp,
    readOp_foldl_modifyOp (g := fun row => { row with erased := true }) _ _ fun _ => rfl,
    isErased_eq_readOp]
  split
  · rename_i ho
    obtain ⟨row, hrow⟩ := hasOp_iff.1 (hex o ho)
    simp [readOp_of_op hrow, ho]
  · rename_i ho
    simp [ho]

theorem inPlace_foldl_mark (ctx : Context) (tree : List OpRef) : ctx.InPlace
    (tree.foldl (fun ctx o => ctx.modifyOp o fun row => { row with erased := true }) ctx) := by
  induction tree generalizing ctx with
  | nil => exact .refl ctx
  | cons o tree ih =>
    exact (InPlace.modifyOp o (fun row => { row with erased := true }) fun _ => rfl).trans (ih _)

/-- What erasing does, given that the tree of the operation is `tree`. -/
theorem Coherent.eraseOp_spec {ctx ctx' : Context} (h : ctx.Coherent) {o : OpRef} :
    ctx.eraseOp o = .ok ctx' →
      ctx.HasOp o ∧ ctx.blockOf o = none ∧
        ∃ tree, ctx.subtree o = .ok tree ∧ (∀ p ∈ tree, ctx.HasOp p) ∧ ctx.Unused tree ∧
          ctx.Marked tree ctx' := by
  intro hrun
  obtain ⟨row, hrow, hrun⟩ := Outcome.bind_eq_ok.1 hrun
  split at hrun
  · simp at hrun
  rename_i hfree
  simp only [Outcome.bind_eq_ok, Outcome.pure_eq_ok] at hrun
  obtain ⟨tree, htree, ctx₁, hdrop, ⟨⟩, hunused, rfl⟩ := hrun
  obtain ⟨hex, uses, rfl, huses⟩ := dropUsesOf_eq_ok hdrop
  -- a use in a chain is by an operation that has the value among its operands
  have hget (v : ValueRef) : uses.get v = (ctx.uses.get v).filter (·.user ∉ tree) := by
    rw [huses]
    refine List.filter_congr fun u hu => ?_
    rw [decide_eq_decide, not_iff_not]
    refine and_iff_left ?_
    rw [h.uses.mem_iff, heldBy_eq] at hu
    split at hu
    · cases hu
    · exact List.mem_zipIdx_iff_getElem?.2 hu
  refine ⟨hasOp_iff.2 ⟨row, hrow⟩, (readOp_of_op hrow _ _).trans hfree, tree, htree, hex,
    fun p hp v hv u hu => ?_, ?_⟩
  · by_contra hn
    have hnil : uses.get v = [] :=
      checkUnused_eq_ok.1 hunused v (List.mem_flatMap.2 ⟨p, hp, hv⟩)
    rw [hget, List.filter_eq_nil_iff] at hnil
    exact hnil u hu (by simpa using hn)
  · have hin := inPlace_foldl_mark { ctx with uses } tree
    refine ⟨⟨hin.1, hin.2, hin.3, hin.4, hin.5, hin.6⟩, ?_, ?_, ?_, ?_, fun v => ?_⟩
    · funext p
      rw [Context.blockOf,
        readOp_foldl_modifyOp (g := fun row => { row with erased := true }) _ _ fun _ => rfl]
      exact ite_self _
    · funext b
      rw [foldl_modifyOp]
      rfl
    · funext p
      rw [operandsOf,
        readOp_foldl_modifyOp (g := fun row => { row with erased := true }) _ _ fun _ => rfl]
      exact ite_self _
    · exact isErased_foldl_mark hex
    · rw [foldl_modifyOp]
      exact hget v

/-- An operation can be erased if it is detached, and no result in its tree is used
    outside the tree. -/
theorem Coherent.eraseOp_ok {ctx : Context} (h : ctx.Coherent) {o : OpRef} {tree : List OpRef}
    (ho : ctx.HasOp o) (hfree : ctx.blockOf o = none) (htree : ctx.subtree o = .ok tree)
    (hex : ∀ p ∈ tree, ctx.HasOp p) (hunused : ctx.Unused tree) :
    ∃ ctx', ctx.eraseOp o = .ok ctx' := by
  obtain ⟨row, hrow⟩ := hasOp_iff.1 ho
  rw [Context.blockOf, readOp_of_op hrow] at hfree
  obtain ⟨ctx₁, hdrop⟩ := dropUsesOf_ok hex
  obtain ⟨-, uses, rfl, huses⟩ := dropUsesOf_eq_ok hdrop
  have hnone : ({ ctx with uses } : Context).checkUnused
      (tree.flatMap ({ ctx with uses } : Context).results) = .ok () := by
    refine checkUnused_eq_ok.2 fun v hv => ?_
    obtain ⟨p, hp, hv⟩ := List.mem_flatMap.1 hv
    rw [huses, List.filter_eq_nil_iff]
    intro u hu
    have hmem := hunused p hp v hv u hu
    rw [h.uses.mem_iff, heldBy_eq] at hu
    split at hu
    · cases hu
    · simpa [hmem, List.mem_zipIdx_iff_getElem?] using hu
  exact ⟨_, by simp only [eraseOp, hrow, Outcome.ok_bind, hfree, htree, hdrop, hnone]; rfl⟩

/-- Erased operations hold nothing. -/
theorem Marked.coherent {ctx ctx' : Context} {tree : List OpRef} (h : ctx.Coherent)
    (hm : ctx.Marked tree ctx') : ctx'.Coherent := by
  refine hm.inPlace.coherent h (by rw [hm.blockOf, hm.opsOf]; exact h.ops)
    ⟨fun v u => ?_, fun v => by rw [hm.uses]; exact (h.uses.nodup v).filter _⟩
  rw [hm.uses, List.mem_filter, h.uses.mem_iff, heldBy_eq, heldBy_eq, hm.operands,
    decide_eq_true_eq]
  by_cases hu : u.user ∈ tree <;> by_cases he : ctx.isErased u.user <;>
    simp [hm.erased, hu, he]

end Offload.Context
