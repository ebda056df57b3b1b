import Offload.Proofs.Ir.Cloning
import Offload.Proofs.Ir.Reachable
import Offload.Proofs.Pattern.Replacement

/-!
# The record of an editor is complete

Whoever applies a pattern looks again at what the editor has noted as touched, and at
nothing else. So no change to an operation may be missing there: one that has other
operands than before or is in another block, and has not been erased, is noted
(`Calls.touched_of_changed`).

Later calls strike operations out again, so completeness is proved as a relation of
two editors (`Reports`) which every call satisfies (`Call.reports`) and which composes:
what is struck out is erased by then, and what has been erased once stays so.
-/

namespace Offload.Editor

open Context

/-! ## Calls -/

/-- A call of one of the methods that change the program. -/
inductive Call : Editor → Editor → Prop
  | createOp {e e' : Editor} {blueprint : Blueprint} {o : OpRef}
      (run : e.createOp blueprint = .ok (e', o)) : Call e e'
  | insertOpBefore {e e' : Editor} {anchor o : OpRef}
      (run : e.insertOpBefore anchor o = .ok e') : Call e e'
  | insertOpAtStart {e e' : Editor} {b : BlockRef} {o : OpRef}
      (run : e.insertOpAtStart b o = .ok e') : Call e e'
  | insertOpAtEnd {e e' : Editor} {b : BlockRef} {o : OpRef}
      (run : e.insertOpAtEnd b o = .ok e') : Call e e'
  | cloneOpAtStart {e e' : Editor} {o copy : OpRef} {b : BlockRef}
      (run : e.cloneOpAtStart o b = .ok (e', copy)) : Call e e'
  | replaceOpWithValues {e e' : Editor} {o : OpRef} {values : List ValueRef}
      (run : e.replaceOpWithValues o values = .ok e') : Call e e'
  | eraseOp {e e' : Editor} {o : OpRef} (run : e.eraseOp o = .ok e') : Call e e'
  | moveOpBefore {e e' : Editor} {o anchor : OpRef}
      (run : e.moveOpBefore o anchor = .ok e') : Call e e'
  | moveOpsToStart {e e' : Editor} {os : List OpRef} {b : BlockRef}
      (run : e.moveOpsToStart os b = .ok e') : Call e e'
  | moveOpsToEnd {e e' : Editor} {os : List OpRef} {b : BlockRef}
      (run : e.moveOpsToEnd os b = .ok e') : Call e e'
  | replaceTerminator {e e' : Editor} {b : BlockRef} {o : OpRef}
      (run : e.replaceTerminator b o = .ok e') : Call e e'

/-- Calls one after the other. -/
def Calls : Editor → Editor → Prop := Relation.ReflTransGen Call

/-! ## What is noted -/

variable {e e₁ e' : Editor} {o : OpRef} {ctx : Context}

@[simp]
theorem mem_touch {p : OpRef} : p ∈ (e.touch o).touched ↔ p ∈ e.touched ∨ p = o := by
  rw [touch]
  split
  · rename_i ho
    exact ⟨.inl, fun hp => hp.elim id fun e => e ▸ ho⟩
  · simp

@[simp]
theorem mem_touchAll {os : List OpRef} {p : OpRef} :
    p ∈ (e.touchAll os).touched ↔ p ∈ e.touched ∨ p ∈ os := by
  induction os generalizing e with
  | nil => simp [touchAll]
  | cons o os ih =>
    rw [touchAll, List.foldl_cons, ← touchAll, ih, mem_touch, List.mem_cons, or_assoc]

/-! ## Reports -/

/-- All that an editor changed on the way to another one is noted there, unless it has
    been erased. -/
structure Reports (e e' : Editor) : Prop where
  coherent : e'.context.Coherent
  hasOp : ∀ o, e.context.HasOp o → e'.context.HasOp o
  erased : ∀ o, e.context.isErased o → e'.context.isErased o
  touched : ∀ o ∈ e.touched, ¬e'.context.isErased o → o ∈ e'.touched
  unchanged : ∀ o, e.context.HasOp o → ¬e'.context.isErased o → o ∉ e'.touched →
    e'.context.operandsOf o = e.context.operandsOf o ∧
      e'.context.blockOf o = e.context.blockOf o

theorem Reports.refl (h : e.context.Coherent) : e.Reports e :=
  ⟨h, fun _ => id, fun _ => id, fun _ ho _ => ho, fun _ _ _ _ => ⟨rfl, rfl⟩⟩

theorem Reports.trans (h₁ : e.Reports e₁) (h₂ : e₁.Reports e') : e.Reports e' where
  coherent := h₂.coherent
  hasOp o ho := h₂.hasOp o (h₁.hasOp o ho)
  erased o ho := h₂.erased o (h₁.erased o ho)
  touched o ho hlive := h₂.touched o (h₁.touched o ho fun he => hlive (h₂.erased o he)) hlive
  unchanged o ho hlive hnot := by
    have hlive₁ : ¬e₁.context.isErased o := fun he => hlive (h₂.erased o he)
    have hnot₁ : o ∉ e₁.touched := fun hm => hnot (h₂.touched o hm hlive)
    obtain ⟨hoperands₁, hblock₁⟩ := h₁.unchanged o ho hlive₁ hnot₁
    obtain ⟨hoperands₂, hblock₂⟩ := h₂.unchanged o (h₁.hasOp o ho) hlive hnot
    exact ⟨hoperands₂.trans hoperands₁, hblock₂.trans hblock₁⟩

/-- An operation that is put somewhere is noted. -/
theorem Reports.put (h : e.context.Coherent) {b : BlockRef} {l : List OpRef}
    (hput : e.context.Put o b l ctx) : e.Reports ((e.withContext ctx).touch o) where
  coherent := by
    rw [context_touch]
    exact h.put hput
  hasOp p hp := by
    rw [context_touch]
    exact hput.relisted.inPlace.hasOp.2 hp
  erased p hp := by
    rw [context_touch]
    exact (congrFun hput.relisted.erased p).trans hp
  touched p hp _ := mem_touch.2 (.inl hp)
  unchanged p _ _ hnot := by
    have hp : p ≠ o := fun e => hnot (mem_touch.2 (.inr e))
    rw [context_touch]
    exact ⟨congrFun hput.relisted.operands p, (hput.blockOf p).trans (if_neg hp)⟩

/-- What is made on the way was not there before. -/
theorem Reports.grow (h : ctx.Coherent)
    (hop : ∀ o row, e.context.op o = .ok row → ctx.op o = .ok row) :
    e.Reports (e.withContext ctx) := by
  have hread {α : Type} {o : OpRef} (ho : e.context.HasOp o) (f : Operation → α) (default : α) :
      ctx.readOp f default o = e.context.readOp f default o := by
    obtain ⟨row, hrow⟩ := hasOp_iff.1 ho
    rw [readOp_of_op hrow, readOp_of_op (hop o row hrow)]
  refine ⟨h, fun o ho => ?_, fun o ho => ?_, fun _ ho _ => ho,
    fun o ho _ _ => ⟨hread ho _ _, hread ho _ _⟩⟩
  · obtain ⟨row, hrow⟩ := hasOp_iff.1 ho
    exact hasOp_iff.2 ⟨row, hop o row hrow⟩
  · have ho' := ho
    rw [isErased_eq_readOp] at ho' ⊢
    exact (hread (hasOp_of_isErased ho) _ _).trans ho'

/-- To note something more changes nothing. -/
theorem Reports.touch (h : e.Reports e') : e.Reports (e'.touch o) where
  coherent := by
    rw [context_touch]
    exact h.coherent
  hasOp := by
    rw [context_touch]
    exact h.hasOp
  erased := by
    rw [context_touch]
    exact h.erased
  touched p hp hlive := by
    rw [context_touch] at hlive
    exact mem_touch.2 (.inl (h.touched p hp hlive))
  unchanged p hp hlive hnot := by
    rw [context_touch] at hlive ⊢
    exact h.unchanged p hp hlive fun hm => hnot (mem_touch.2 (.inl hm))

/-! ## Every call reports -/

theorem createOp_reports (h : e.context.Coherent) {blueprint : Blueprint}
    (hrun : e.createOp blueprint = .ok (e', o)) : e.Reports e' := by
  simp only [createOp, Context.createOp, Outcome.bind_eq_ok, Outcome.pure_eq_ok, Prod.exists,
    Prod.mk.injEq] at hrun
  obtain ⟨ctx, p, ⟨⟨⟩, hcheck, hadd⟩, rfl, rfl⟩ := hrun
  obtain ⟨hrs, hnodup⟩ := checkRegionsFree_eq_ok hcheck
  obtain rfl : (e.context.addOp blueprint).1 = ctx := congrArg Prod.fst hadd
  have hcoherent := h.addOp (fun r hr => (hrs r hr).1) (fun r hr => (hrs r hr).2.1) hnodup
  refine (Reports.grow hcoherent fun q row hrow => ?_).touch
  have hne : q ≠ ⟨e.context.ops.size⟩ := by
    rintro rfl
    exact not_hasOp_size (hasOp_iff.2 ⟨row, hrow⟩)
  rw [op_iff_readOp, readOp_addOp, if_neg hne, op_iff_readOp.1 hrow]

/-- The operations that hold a value are noted when it is replaced. -/
theorem replaceAllUses_reports (h : e.context.Coherent) {old new : ValueRef}
    (hrun : e.context.replaceAllUses old new = .ok ctx) :
    e.Reports ((e.withContext ctx).touchAll ((e.context.uses.get old).map Use.user)) := by
  by_cases hne : old = new
  · rw [Context.replaceAllUses, if_pos hne] at hrun
    obtain rfl := Outcome.pure_eq_ok.1 hrun
    refine ⟨by rwa [context_touchAll], ?_, ?_, fun p hp _ => mem_touchAll.2 (.inl hp), ?_⟩ <;>
      rw [context_touchAll]
    · exact fun _ => id
    · exact fun _ => id
    · exact fun _ _ _ _ => ⟨rfl, rfl⟩
  · obtain ⟨_, hrun', hin, hblock, -, herased, hoperands, -⟩ := h.replaceAllUses_slots hne
    obtain ⟨_, hrun'', hw⟩ := h.replaceAllUses hne
    obtain rfl := Except.ok.inj (hrun.symm.trans hrun')
    obtain rfl := Except.ok.inj (hrun.symm.trans hrun'')
    refine ⟨?_, ?_, ?_, fun p hp _ => mem_touchAll.2 (.inl hp), ?_⟩ <;> rw [context_touchAll]
    · exact hw.coherent h hne
    · exact fun p => hin.hasOp.2
    · exact fun p hp => (congrFun herased p).trans hp
    · intro p _ _ hnot
      refine ⟨List.ext_getElem? fun i => ?_, congrFun hblock p⟩
      have hfree : (⟨p, i⟩ : Use) ∉ e.context.uses.get old := fun hu =>
        hnot (mem_touchAll.2 (.inr (List.mem_map_of_mem (f := Use.user) hu)))
      exact (hoperands p i).trans (if_neg hfree)

theorem replaceValues_reports (h : e.context.Coherent) {pairs : List (ValueRef × ValueRef)}
    (hrun : e.replaceValues pairs = .ok e') : e.Reports e' := by
  induction pairs generalizing e with
  | nil =>
    obtain rfl := Outcome.pure_eq_ok.1 hrun
    exact .refl h
  | cons pair pairs ih =>
    obtain ⟨old, new⟩ := pair
    simp only [replaceValues, Outcome.bind_eq_ok] at hrun
    obtain ⟨ctx, hreplace, hrest⟩ := hrun
    have hstep := replaceAllUses_reports h hreplace
    exact hstep.trans (ih hstep.coherent hrest)

/-- What is struck out is erased. -/
theorem eraseOp_reports (h : e.context.Coherent) (hrun : e.eraseOp o = .ok e') : e.Reports e' := by
  obtain ⟨ctx₁, hdetach, herase, htouched⟩ := eraseOp_eq_ok hrun
  obtain ⟨-, tree, htree, -, hmarked⟩ := h.marked_of_detachOp hdetach herase
  have hdet : e.context.Relisted (e.context.detached o) := relisted_detached
  have herased (p : OpRef) :
      e'.context.isErased p ↔ e.context.Within p o ∨ e.context.isErased p := by
    rw [hmarked.erased, htree, hdet.erased]
  have hroot : e'.context.isErased o := (herased o).2 (.inl (.refl o))
  refine ⟨hmarked.coherent (h.detached o), fun p hp => ?_, fun p hp => (herased p).2 (.inr hp),
    fun p hp hlive => ?_, fun p _ hlive _ => ⟨?_, ?_⟩⟩
  · exact hmarked.inPlace.hasOp.2 (hdet.inPlace.hasOp.2 hp)
  · rw [htouched, List.mem_filter, decide_eq_true_eq]
    refine ⟨?_, fun e => hlive (e ▸ hroot)⟩
    cases e.context.above o with
    | none => exact hp
    | some a => exact mem_touch.2 (.inl hp)
  · rw [hmarked.operands, hdet.operands]
  · have hne : p ≠ o := fun e => hlive (e ▸ hroot)
    rw [hmarked.blockOf, h.blockOf_detached, if_neg hne]

theorem insertOpAtEnd_reports (h : e.context.Coherent) {b : BlockRef}
    (hrun : e.insertOpAtEnd b o = .ok e') : e.Reports e' := by
  simp only [insertOpAtEnd, Outcome.bind_eq_ok, Outcome.pure_eq_ok] at hrun
  obtain ⟨ctx, hpush, rfl⟩ := hrun
  exact .put h (pushOp_put h hpush)

theorem insertOpAtStart_reports (h : e.context.Coherent) {b : BlockRef}
    (hrun : e.insertOpAtStart b o = .ok e') : e.Reports e' := by
  simp only [insertOpAtStart, Outcome.bind_eq_ok, Outcome.pure_eq_ok] at hrun
  obtain ⟨ctx, hinsert, rfl⟩ := hrun
  exact .put h (insertOpAt_put h hinsert)

theorem insertOpBefore_reports (h : e.context.Coherent) {anchor : OpRef}
    (hrun : e.insertOpBefore anchor o = .ok e') : e.Reports e' := by
  simp only [insertOpBefore, Outcome.bind_eq_ok, Outcome.pure_eq_ok] at hrun
  obtain ⟨ctx, hmove, rfl⟩ := hrun
  obtain ⟨b, before, after, -, -, -, hput⟩ := moveOpBefore_put h hmove
  exact .put h hput

theorem moveOpsTo_reports (h : e.context.Coherent) {b : BlockRef} {position : Nat}
    {os : List OpRef} (hrun : moveOpsTo b e position os = .ok e') : e.Reports e' := by
  induction os generalizing e position with
  | nil =>
    obtain rfl := Outcome.pure_eq_ok.1 hrun
    exact .refl h
  | cons o os ih =>
    simp only [moveOpsTo, Outcome.bind_eq_ok] at hrun
    obtain ⟨ctx₁, hdetach, ctx₂, hinsert, hrest⟩ := hrun
    have hstep := Reports.put h (detachOp_insertOpAt_put h hdetach hinsert)
    exact hstep.trans (ih hstep.coherent hrest)

theorem moveOpsToEnd_reports (h : e.context.Coherent) {b : BlockRef} {os : List OpRef}
    (hrun : moveOpsToEnd e os b = .ok e') : e.Reports e' := by
  induction os generalizing e with
  | nil =>
    obtain rfl := Outcome.pure_eq_ok.1 hrun
    exact .refl h
  | cons o os ih =>
    simp only [moveOpsToEnd, Outcome.bind_eq_ok] at hrun
    obtain ⟨ctx₁, hdetach, ctx₂, hpush, hrest⟩ := hrun
    have hstep := Reports.put h (detachOp_pushOp_put h hdetach hpush)
    exact hstep.trans (ih hstep.coherent hrest)

theorem cloneOpAtStart_reports (h : e.context.Coherent) {b : BlockRef} {copy : OpRef}
    (hrun : e.cloneOpAtStart o b = .ok (e', copy)) : e.Reports e' := by
  simp only [cloneOpAtStart, Outcome.bind_eq_ok, Outcome.pure_eq_ok, Prod.exists,
    Prod.mk.injEq] at hrun
  obtain ⟨ctx₁, map, p, hclone, e₁, hinsert, rfl, rfl⟩ := hrun
  obtain ⟨hcoherent, hext, -⟩ := h.cloneOp_grows hclone
  exact (Reports.grow hcoherent hext.op).trans (insertOpAtStart_reports hcoherent hinsert)

theorem replaceTerminator_reports (h : e.context.Coherent) {b : BlockRef}
    (hrun : e.replaceTerminator b o = .ok e') : e.Reports e' := by
  obtain ⟨old, -, hrun⟩ := Outcome.bind_eq_ok.1 hrun
  cases old with
  | none => simp at hrun
  | some old =>
    obtain ⟨e₁, herase, hinsert⟩ := Outcome.bind_eq_ok.1 hrun
    have hstep := eraseOp_reports h herase
    exact hstep.trans (insertOpAtEnd_reports hstep.coherent hinsert)

theorem Call.reports (h : e.context.Coherent) (hcall : Call e e') : e.Reports e' := by
  cases hcall with
  | createOp run => exact createOp_reports h run
  | insertOpBefore run => exact insertOpBefore_reports h run
  | insertOpAtStart run => exact insertOpAtStart_reports h run
  | insertOpAtEnd run => exact insertOpAtEnd_reports h run
  | cloneOpAtStart run => exact cloneOpAtStart_reports h run
  | replaceOpWithValues run =>
    obtain ⟨-, e₁, hvalues, herase⟩ := replaceOpWithValues_eq_ok.1 run
    have hstep := replaceValues_reports h hvalues
    exact hstep.trans (eraseOp_reports hstep.coherent herase)
  | eraseOp run => exact eraseOp_reports h run
  | moveOpBefore run => exact insertOpBefore_reports h run
  | moveOpsToStart run => exact moveOpsTo_reports h run
  | moveOpsToEnd run => exact moveOpsToEnd_reports h run
  | replaceTerminator run => exact replaceTerminator_reports h run

theorem Calls.reports (h : e.context.Coherent) (hcalls : Calls e e') : e.Reports e' := by
  induction hcalls with
  | refl => exact .refl h
  | tail _ hcall ih => exact ih.trans (hcall.reports ih.coherent)

/-- After any calls, an operation that was there before them, is not erased, and has
    other operands than before or is in another block is noted as touched. -/
theorem Calls.touched_of_changed (h : e.context.Coherent) (hcalls : Calls e e')
    (ho : e.context.HasOp o) (hlive : ¬e'.context.isErased o)
    (hchanged : e'.context.operandsOf o ≠ e.context.operandsOf o ∨
      e'.context.blockOf o ≠ e.context.blockOf o) : o ∈ e'.touched := by
  by_contra hnot
  obtain ⟨hoperands, hblock⟩ := (hcalls.reports h).unchanged o ho hlive hnot
  exact hchanged.elim (· hoperands) (· hblock)

set_option maxRecDepth 100000 in
/-- An operation is copied, and then its results are replaced: the user of these is noted. -/
theorem Calls.touched_of_changed_pairUsed : ∃ root ctx e',
    Context.empty.read "f" pairUsed = (.ok root, ctx) ∧ ctx.Coherent ∧
      Calls { context := ctx } e' ∧ ctx.operandsOf ⟨2⟩ = [⟨1⟩, ⟨2⟩, ⟨1⟩] ∧
      e'.context.operandsOf ⟨2⟩ = [⟨0⟩, ⟨0⟩, ⟨0⟩] ∧ ¬e'.context.isErased ⟨2⟩ ∧
      ⟨2⟩ ∈ e'.touched := by
  have hreads : Build.reads "f" pairUsed fun _ ctx =>
      decide (2 < ctx.ops.size ∧ ctx.operandsOf ⟨2⟩ = [⟨1⟩, ⟨2⟩, ⟨1⟩]) &&
      decide ((({ context := ctx } : Editor).cloneOpAtStart ⟨1⟩ ⟨0⟩).toOption.bind
        (fun p => (p.1.replaceOpWithValues ⟨1⟩ [⟨0⟩, ⟨0⟩]).toOption.map
          fun e => (e.context.operandsOf ⟨2⟩, e.context.isErased ⟨2⟩)) =
        some ([⟨0⟩, ⟨0⟩, ⟨0⟩], false)) := Build.reads_ofList (by decide +kernel)
  obtain ⟨root, ctx, hread, htest⟩ := Build.exists_of_reads hreads
  obtain ⟨hbefore, hrun⟩ := Bool.and_eq_true_iff.1 htest
  obtain ⟨hop, hbefore⟩ := of_decide_eq_true hbefore
  obtain ⟨⟨e₁, copy⟩, hclone, hrun⟩ := Option.bind_eq_some_iff.1 (of_decide_eq_true hrun)
  obtain ⟨e', hreplace, hafter⟩ := Option.map_eq_some_iff.1 hrun
  obtain ⟨hoperands, hlive⟩ := Prod.mk.inj hafter
  have hcoherent := (Build.read_built hread).1.coherent
  have hcalls : Calls { context := ctx } e' :=
    (Relation.ReflTransGen.single (.cloneOpAtStart (Outcome.eq_ok_of_toOption hclone))).tail
      (.replaceOpWithValues (Outcome.eq_ok_of_toOption hreplace))
  have hlive : ¬e'.context.isErased ⟨2⟩ := by simp [hlive]
  refine ⟨root, ctx, e', hread, hcoherent, hcalls, hbefore, hoperands, hlive,
    Calls.touched_of_changed hcoherent hcalls hop hlive (.inl ?_)⟩
  rw [hoperands, hbefore]
  decide

end Offload.Editor
