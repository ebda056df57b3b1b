import Offload.Proofs.Pattern.Editor
import Offload.Proofs.Source.Build

/-!
# Replacing an operation by values

Values are put in the place of the results of an operation one after another, and
the use chains are spliced at every step. As no new value is a result itself, the
steps do not meet, and what they do together is one substitution (`Substituted`).
Then the operation is erased, with what is nested in it, whoever used the values
(`Replaced`). Of a context nothing is needed but that its tables agree.
-/

namespace Offload

namespace Context

variable {ctx ctx₁ ctx' : Context} {old new : ValueRef} {pairs : List (ValueRef × ValueRef)}

/-! ## Substitution -/

/-- The value that stands for another one, of which the first pair with it tells. -/
def substitute (pairs : List (ValueRef × ValueRef)) (v : ValueRef) : ValueRef :=
  (pairs.lookup v).getD v

@[simp]
theorem substitute_nil (v : ValueRef) : substitute [] v = v := rfl

theorem substitute_cons (v : ValueRef) :
    substitute ((old, new) :: pairs) v = if v = old then new else substitute pairs v := by
  rw [substitute, List.lookup_cons]
  by_cases h : v = old
  · simp [h]
  · rw [if_neg h, beq_false_of_ne h]
    rfl

theorem substitute_of_not_mem {v : ValueRef} (h : v ∉ pairs.map Prod.fst) :
    substitute pairs v = v := by
  induction pairs with
  | nil => rfl
  | cons pair pairs ih =>
    rw [List.map_cons, List.mem_cons, not_or] at h
    rw [substitute_cons, if_neg h.1, ih h.2]

/-- The `n`-th of some distinct values becomes the `n`-th of the others. -/
theorem substitute_zip {olds news : List ValueRef} (hlength : olds.length = news.length)
    (hnodup : olds.Nodup) {n : Nat} {v : ValueRef} (hv : olds[n]? = some v) :
    news[n]? = some (substitute (olds.zip news) v) := by
  induction olds generalizing news n with
  | nil => simp at hv
  | cons old olds ih =>
    cases news with
    | nil => cases hlength
    | cons new news =>
      obtain ⟨hold, hnodup⟩ := List.nodup_cons.1 hnodup
      rw [List.zip_cons_cons, substitute_cons]
      cases n with
      | zero =>
        rw [List.getElem?_cons_zero, Option.some.injEq] at hv
        rw [if_pos hv.symm, List.getElem?_cons_zero]
      | succ n =>
        rw [List.getElem?_cons_succ] at hv
        have hne : v ≠ old := fun e => hold (e ▸ List.mem_of_getElem? hv)
        rw [if_neg hne, List.getElem?_cons_succ]
        exact ih (Nat.succ.inj hlength) hnodup hv

/-- Values were put in the place of others at once: in every slot of an operation that
    is not erased, and with all their uses. -/
structure Substituted (ctx : Context) (pairs : List (ValueRef × ValueRef))
    (ctx' : Context) : Prop where
  inPlace : ctx.InPlace ctx'
  coherent : ctx'.Coherent
  blockOf : ctx'.blockOf = ctx.blockOf
  opsOf : ctx'.opsOf = ctx.opsOf
  erased : ctx'.isErased = ctx.isErased
  operands : ∀ o, ctx'.operandsOf o =
    if ctx.isErased o then ctx.operandsOf o else (ctx.operandsOf o).map (substitute pairs)
  uses : ∀ v, ctx'.uses.get v = if v ∈ pairs.map Prod.fst then [] else
    ctx.uses.get v ++ (pairs.filter (·.2 = v)).flatMap (ctx.uses.get ·.1)

theorem Coherent.substituted_nil (h : ctx.Coherent) : ctx.Substituted [] ctx where
  inPlace := .refl ctx
  coherent := h
  blockOf := rfl
  opsOf := rfl
  erased := rfl
  operands o := by
    rw [show substitute [] = id from funext substitute_nil, List.map_id, ite_self]
  uses v := by simp

/-- One value is put in the place of another one: the uses of that go to the end of
    its chain. -/
theorem Coherent.replaceAllUses_substituted (h : ctx.Coherent) (hne : old ≠ new) :
    ∃ ctx', ctx.replaceAllUses old new = .ok ctx' ∧ ctx.Substituted [(old, new)] ctx' := by
  obtain ⟨ctx', hrun, hin, hblock, hops, herased, hoperands, huses⟩ := h.replaceAllUses_slots hne
  obtain ⟨_, hrun', hw⟩ := h.replaceAllUses hne
  obtain rfl := Except.ok.inj (hrun.symm.trans hrun')
  refine ⟨ctx', hrun, hin, hw.coherent h hne, hblock, hops, herased, fun o => ?_, fun v => ?_⟩
  · split
    · rename_i ho
      refine List.ext_getElem? fun i => ?_
      rw [hoperands, if_neg fun hu => (h.slot_of_mem_uses hu).2 ho]
    · rename_i ho
      have hheld := hw.held o
      rw [heldBy_eq, heldBy_eq, if_neg ho, congrFun herased, if_neg ho] at hheld
      rw [hheld]
      refine List.map_congr_left fun v _ => ?_
      rw [substitute_cons, substitute_nil]
  · rw [huses]
    by_cases hnew : v = new
    · subst hnew
      simp [hne.symm]
    · by_cases hold : v = old
      · simp [hold, hne]
      · simp [hnew, hold, Ne.symm hnew]

/-- A substitution is made pair by pair, if no value that was replaced is put in the
    place of another one. -/
theorem Substituted.cons (h : ctx.Substituted [(old, new)] ctx₁)
    (h₁ : ctx₁.Substituted pairs ctx') (hold : old ∉ pairs.map Prod.fst)
    (hold' : old ∉ pairs.map Prod.snd) (hnew : new ∉ pairs.map Prod.fst) (hne : old ≠ new) :
    ctx.Substituted ((old, new) :: pairs) ctx' where
  inPlace := h.inPlace.trans h₁.inPlace
  coherent := h₁.coherent
  blockOf := h₁.blockOf.trans h.blockOf
  opsOf := h₁.opsOf.trans h.opsOf
  erased := h₁.erased.trans h.erased
  operands o := by
    rw [h₁.operands, h.operands, h.erased]
    split
    · rfl
    · rw [List.map_map]
      refine List.map_congr_left fun v _ => ?_
      rw [Function.comp_apply, substitute_cons, substitute_nil, substitute_cons]
      split
      · exact substitute_of_not_mem hnew
      · rfl
  uses v := by
    have huses (w : ValueRef) (hw : w ≠ old) (hw' : w ≠ new) :
        ctx₁.uses.get w = ctx.uses.get w := by
      rw [h.uses]
      simp [hw, hw'.symm]
    -- the values that are replaced later have the chains that they had at the start
    have hlater : (pairs.filter (·.2 = v)).flatMap (ctx₁.uses.get ·.1) =
        (pairs.filter (·.2 = v)).flatMap (ctx.uses.get ·.1) := by
      refine List.flatMap_congr fun pair hpair => ?_
      have hmem : pair.1 ∈ pairs.map Prod.fst := List.mem_map_of_mem (List.mem_filter.1 hpair).1
      exact huses _ (fun e => hold (e ▸ hmem)) fun e => hnew (e ▸ hmem)
    rw [h₁.uses, hlater]
    simp only [List.map_cons, List.mem_cons]
    by_cases hv : v ∈ pairs.map Prod.fst
    · rw [if_pos hv, if_pos (.inr hv)]
    · simp only [hv, if_false, or_false]
      split
      · rename_i hv
        subst hv
        have hnone : pairs.filter (·.2 = v) = [] := by
          refine List.filter_eq_nil_iff.2 fun pair hpair => ?_
          rw [decide_eq_true_eq]
          rintro rfl
          exact hold' (List.mem_map_of_mem hpair)
        rw [hnone, h.uses]
        simp
      · rename_i hv
        rw [List.filter_cons]
        by_cases hvn : new = v
        · subst hvn
          rw [h.uses]
          simp [hv]
        · rw [huses v hv (Ne.symm hvn)]
          simp [hvn]

/-! ## Erasure -/

/-- The results of an operation were replaced by values, and the operation erased with
    what was nested in it, which is `tree`. -/
structure Replaced (ctx : Context) (o : OpRef) (values : List ValueRef) (tree : List OpRef)
    (ctx' : Context) : Prop where
  length : values.length = (ctx.results o).length
  mem_tree : ∀ p, p ∈ tree ↔ ctx.Within p o
  coherent : ctx'.Coherent
  filled : ∀ (p : OpRef) (i n : Nat) (r : ValueRef), ¬ctx.isErased p →
    (ctx.operandsOf p)[i]? = some r → (ctx.results o)[n]? = some r →
    (ctx'.operandsOf p)[i]? = values[n]?
  kept : ∀ (p : OpRef) (i : Nat),
    (ctx.isErased p ∨ ∀ r ∈ ctx.results o, (ctx.operandsOf p)[i]? ≠ some r) →
    (ctx'.operandsOf p)[i]? = (ctx.operandsOf p)[i]?
  unused : ∀ r ∈ ctx.results o, ctx'.uses.get r = []
  uses : ∀ v, v ∉ ctx.results o → ctx'.uses.get v =
    (ctx.uses.get v ++ (((ctx.results o).zip values).filter (·.2 = v)).flatMap
      (ctx.uses.get ·.1)).filter (·.user ∉ tree)
  erased : ∀ p, ctx'.isErased p ↔ p ∈ tree ∨ ctx.isErased p
  unlisted : ∀ b, o ∉ ctx'.opsOf b

/-- Values are put in the place of the results of an operation, and what is left of it
    is erased. -/
theorem Substituted.replaced {o : OpRef} {values : List ValueRef} {tree : List OpRef}
    (h : ctx.Substituted ((ctx.results o).zip values) ctx₁) (hc : ctx.Coherent)
    (hlength : (ctx.results o).length = values.length)
    (htree : ∀ p, p ∈ tree ↔ ctx.Within p o) (hmarked : (ctx₁.detached o).Marked tree ctx') :
    ctx.Replaced o values tree ctx' := by
  have hfst : ((ctx.results o).zip values).map Prod.fst = ctx.results o :=
    List.map_fst_zip hlength.le
  have hdet : ctx₁.Relisted (ctx₁.detached o) := relisted_detached
  have hoperands (p : OpRef) : ctx'.operandsOf p = if ctx.isErased p then ctx.operandsOf p else
      (ctx.operandsOf p).map (substitute ((ctx.results o).zip values)) := by
    rw [hmarked.operands, hdet.operands, h.operands]
  have huses (v : ValueRef) : ctx'.uses.get v = (if v ∈ ctx.results o then [] else
      ctx.uses.get v ++ (((ctx.results o).zip values).filter (·.2 = v)).flatMap
        (ctx.uses.get ·.1)).filter (·.user ∉ tree) := by
    rw [hmarked.uses, hdet.uses, h.uses, hfst]
  refine ⟨hlength.symm, htree, hmarked.coherent (h.coherent.detached o),
    fun p i n r hp hr hn => ?_, fun p i hor => ?_, fun r hr => ?_, fun v hv => ?_, fun p => ?_,
    fun b => ?_⟩
  · rw [hoperands, if_neg hp, List.getElem?_map, hr, Option.map_some]
    exact (substitute_zip hlength (hc.results_nodup o) hn).symm
  · rw [hoperands]
    split
    · rfl
    · rename_i hp
      rw [List.getElem?_map]
      cases hv : (ctx.operandsOf p)[i]? with
      | none => rfl
      | some v =>
        rw [Option.map_some, substitute_of_not_mem]
        rw [hfst]
        exact fun hm => hor.resolve_left hp v hm hv
  · rw [huses, if_pos hr, List.filter_nil]
  · rw [huses, if_neg hv]
  · rw [hmarked.erased, hdet.erased, h.erased]
  · rw [hmarked.opsOf, h.coherent.opsOf_detached]
    simp

end Context

namespace Editor

open Context

variable {e e' : Editor} {o : OpRef}

/-- Values that are put in the place of others one by one are put there at once. -/
theorem replaceValues_substituted (h : e.context.Coherent) {olds news : List ValueRef}
    (hlength : olds.length = news.length) (hnodup : olds.Nodup) (hnew : ∀ v ∈ news, v ∉ olds)
    (hrun : replaceValues e (olds.zip news) = .ok e') :
    e.context.Substituted (olds.zip news) e'.context := by
  induction olds generalizing e news with
  | nil =>
    obtain rfl := Outcome.pure_eq_ok.1 hrun
    exact h.substituted_nil
  | cons old olds ih =>
    cases news with
    | nil => cases hlength
    | cons new news =>
      obtain ⟨hold, hnodup⟩ := List.nodup_cons.1 hnodup
      have hne : old ≠ new := fun e => hnew new List.mem_cons_self (e ▸ List.mem_cons_self)
      simp only [List.zip_cons_cons, replaceValues, Outcome.bind_eq_ok] at hrun
      obtain ⟨ctx₁, hreplace, hrun⟩ := hrun
      obtain ⟨_, hreplace', hstep⟩ := h.replaceAllUses_substituted hne
      obtain rfl := Except.ok.inj (hreplace.symm.trans hreplace')
      have hrest := ih (e := (e.withContext ctx₁).touchAll _)
        (by rw [context_touchAll]; exact hstep.coherent) (Nat.succ.inj hlength) hnodup
        (fun v hv hm => hnew v (List.mem_cons_of_mem new hv) (List.mem_cons_of_mem old hm)) hrun
      rw [context_touchAll] at hrest
      have hlength' : olds.length = news.length := Nat.succ.inj hlength
      rw [List.zip_cons_cons]
      refine hstep.cons hrest ?_ ?_ ?_ hne
      · rwa [List.map_fst_zip hlength'.le]
      · rw [List.map_snd_zip hlength'.ge]
        exact fun hm => hnew old (List.mem_cons_of_mem new hm) List.mem_cons_self
      · rw [List.map_fst_zip hlength'.le]
        exact fun hm => hnew new List.mem_cons_self (List.mem_cons_of_mem old hm)

/-- An operation is replaced by values that are no results of it: the values are
    substituted for the results at once, in all slots of operations that are not erased,
    the use chains are joined, and the tree of the operation is lost. One step of this
    empties the chain of a value and appends it to the chain of another one. -/
theorem replaceOpWithValues_replaced (h : e.context.Coherent) :
    (∀ o values e', (∀ v ∈ values, v ∉ e.context.results o) →
      e.replaceOpWithValues o values = .ok e' →
        ∃ tree, e.context.Replaced o values tree e'.context) ∧
    ∀ old new, old ≠ new → ∃ ctx, e.context.replaceAllUses old new = .ok ctx ∧ ctx.Coherent ∧
      ctx.uses.get old = [] ∧
      ctx.uses.get new = e.context.uses.get new ++ e.context.uses.get old ∧
      ∀ v, v ≠ old → v ≠ new → ctx.uses.get v = e.context.uses.get v := by
  constructor
  · intro o values e' hnew hrun
    obtain ⟨hlength, e₁, hvalues, herase⟩ := replaceOpWithValues_eq_ok.1 hrun
    have hsubst := replaceValues_substituted h hlength (h.results_nodup o) hnew hvalues
    obtain ⟨ctx₁, hdetach, herase, -⟩ := eraseOp_eq_ok herase
    obtain ⟨-, tree, htree, -, hmarked⟩ := hsubst.coherent.marked_of_detachOp hdetach herase
    refine ⟨tree, hsubst.replaced h hlength (fun p => ?_) hmarked⟩
    rw [htree, Within, Within, hsubst.inPlace.above hsubst.blockOf]
  · intro old new hne
    obtain ⟨ctx, hrun, hsubst⟩ := h.replaceAllUses_substituted hne
    refine ⟨ctx, hrun, hsubst.coherent, ?_, ?_, fun v hold hnew => ?_⟩
    · simp [hsubst.uses]
    · simp [hsubst.uses, hne.symm]
    · simp [hsubst.uses, hold, Ne.symm hnew]

/-- An operation with two results that are used in turn. -/
def pairUsed : String :=
  "func.func @f \x7btype = func.fn(core.nil)\x7d \x7b
  %v = test.value : core.i32
  %a, %b = test.pair : core.i32, core.i32
  test.use %a, %b, %a
  func.return
\x7d"

set_option maxRecDepth 100000 in
/-- Both results are replaced by one value, whose chain has the uses of the one before
    those of the other. -/
theorem replaceOpWithValues_replaced_pairUsed : ∃ root ctx e' tree,
    Context.empty.read "f" pairUsed = (.ok root, ctx) ∧ ctx.Coherent ∧
      ctx.results ⟨1⟩ = [⟨1⟩, ⟨2⟩] ∧
      ({ context := ctx } : Editor).replaceOpWithValues ⟨1⟩ [⟨0⟩, ⟨0⟩] = .ok e' ∧
      ctx.Replaced ⟨1⟩ [⟨0⟩, ⟨0⟩] tree e'.context ∧
      e'.context.uses.get ⟨0⟩ = [⟨⟨2⟩, 0⟩, ⟨⟨2⟩, 2⟩, ⟨⟨2⟩, 1⟩] := by
  have hreads : Build.reads "f" pairUsed fun _ ctx =>
      decide (ctx.results ⟨1⟩ = [⟨1⟩, ⟨2⟩]) &&
      decide ((({ context := ctx } : Editor).replaceOpWithValues ⟨1⟩ [⟨0⟩, ⟨0⟩]).toOption.map
        (·.context.uses.get ⟨0⟩) = some [⟨⟨2⟩, 0⟩, ⟨⟨2⟩, 2⟩, ⟨⟨2⟩, 1⟩]) :=
    Build.reads_ofList (by decide +kernel)
  obtain ⟨root, ctx, hread, htest⟩ := Build.exists_of_reads hreads
  obtain ⟨hresults, hrun⟩ := Bool.and_eq_true_iff.1 htest
  obtain ⟨e', hrun, huses⟩ := Option.map_eq_some_iff.1 (of_decide_eq_true hrun)
  have hcoherent := (Build.read_built hread).1.coherent
  have hresults : ctx.results ⟨1⟩ = [⟨1⟩, ⟨2⟩] := of_decide_eq_true hresults
  obtain ⟨tree, hreplaced⟩ := (replaceOpWithValues_replaced (e := { context := ctx }) hcoherent).1
    ⟨1⟩ [⟨0⟩, ⟨0⟩] e' (by simp [hresults]) (Outcome.eq_ok_of_toOption hrun)
  exact ⟨root, ctx, e', tree, hread, hcoherent, hresults, Outcome.eq_ok_of_toOption hrun,
    hreplaced, huses⟩

end Editor

end Offload
