import Offload.Proofs.Ir.Walk
import Offload.Proofs.Parallel.Run

/-!
# What is left at a fixpoint

A run that has reached a fixpoint leaves a program to which none of the patterns applies,
and which is then in *normal form* (`Normal`): no parallel region directly follows another
one, none is alone in a loop or in the first branch of a conditional that it could leave,
and what stands right before the only region of a function is not moved into it, but
anywhere else what could be moved has been (`run_normal`).

The patterns are complete for that: `merge?_eq_none` and `leaveLoop?_eq_none`,
`leaveConditional?_eq_none` say all that can be behind a pattern that does not apply.
-/

namespace Offload

namespace Context

variable {ctx : Context} {o s t : OpRef}

/-! ## The scope of a region -/

/-- The function that an operation is directly or indirectly in; without one, the outermost
    operation around it. -/
inductive ScopeOf (ctx : Context) (o s : OpRef) : Prop
  | function (around : ctx.Around s o) (kind : ctx.kindOf s = .func)
      (innermost : ∀ q, ctx.Around q o → ctx.Within q s → ctx.kindOf q = .func → q = s)
  | outermost (unnested : ∀ q, ctx.Around q o → ctx.kindOf q ≠ .func) (within : ctx.Within o s)
      (top : ctx.above s = none)

/-- An operation has one scope. -/
theorem ScopeOf.unique (hs : ctx.ScopeOf o s) (ht : ctx.ScopeOf o t) : s = t := by
  have htop {a b : OpRef} (ha : ctx.above a = none) (hw : ctx.Within a b) : a = b := by
    rcases within_iff_above.1 hw with e | ⟨p, hp, -⟩
    · exact e
    · rw [ha] at hp
      cases hp
  cases hs with
  | function hs hkind hfirst =>
    cases ht with
    | function ht hkind' hfirst' =>
      rcases hs.within.total ht.within with hw | hw
      · exact hfirst' s hs hw hkind
      · exact (hfirst t ht hw hkind').symm
    | outermost hnone _ _ => exact absurd hkind (hnone s hs)
  | outermost hnone hw hs =>
    cases ht with
    | function ht hkind _ => exact absurd hkind (hnone t ht)
    | outermost _ hw' ht =>
      rcases hw.total hw' with hst | hts
      · exact htop hs hst
      · exact (htop ht hts).symm

/-- No parallel region can be merged or interchanged any more. -/
structure Normal (ctx : Context) (root : OpRef) : Prop where
  apart : ∀ b p, ctx.holder b = some p → ctx.Within p root →
    ∀ before first second after, ctx.opsOf b = before ++ first :: second :: after →
      ¬(ctx.kindOf first = .parallel ∧ ctx.kindOf second = .parallel)
  loop : ∀ b p, ctx.holder b = some p → ctx.Within p root →
    ctx.kindOf p = .loop → ctx.results p = [] → (ctx.opsOf b).length = 2 →
      ∀ o ∈ ctx.opsOf b, ctx.kindOf o ≠ .parallel
  conditional : ∀ b p r, (ctx.regionsOf p).head? = some r → b ∈ ctx.blocksOf r →
    ctx.Within p root → ctx.kindOf p = .conditional → ctx.results p = [] →
      (ctx.opsOf b).length = 2 → ∀ o ∈ ctx.opsOf b, ctx.kindOf o ≠ .parallel
  alone : ∀ b p, ctx.holder b = some p → ctx.Within p root →
    ∀ before previous o after, ctx.opsOf b = before ++ previous :: o :: after →
      ctx.kindOf o = .parallel → ctx.kindOf previous ≠ .parallel →
      ctx.isReadOnly previous = .ok true →
      (∀ v ∈ ctx.results previous, ∀ q, v ∈ ctx.heldBy q → ctx.Within q o) →
      ∀ s, ctx.ScopeOf o s → ∀ other, ctx.Within other s → ctx.kindOf other = .parallel →
        ctx.Within other o

end Context

namespace Parallel

open Context

variable {root o : OpRef} {ctx ctx' : Context}

/-! ## Other regions -/

theorem outermostWithin_spec {n : Nat} {s : OpRef} (hrun : outermostWithin ctx n o = .ok s) :
    ctx.Within o s := by
  induction n generalizing o with
  | zero => exact Outcome.pure_eq_ok.1 hrun ▸ .refl o
  | succ n ih =>
    rw [outermostWithin] at hrun
    obtain ⟨parent, hparent, hrun⟩ := Outcome.bind_eq_ok.1 hrun
    obtain ⟨-, rfl⟩ := parentOp_eq_ok hparent
    cases habove : ctx.above o with
    | none =>
      simp only [habove, Outcome.pure_eq_ok] at hrun
      exact hrun ▸ .refl o
    | some p =>
      simp only [habove] at hrun
      exact (within_of_above habove).trans (ih hrun)

theorem outermostWithin_top (h : ctx.Sound) (ho : ctx.HasOp o) {s : OpRef}
    (hrun : outermostWithin ctx (ctx.ops.size + 1) o = .ok s) : ctx.above s = none := by
  obtain ⟨depth, hdepth, hsize⟩ := h.grounded.exists_depth h.coherent
  have key {n : Nat} {o : OpRef} (hn : depth o < n) (hrun : outermostWithin ctx n o = .ok s) :
      ctx.above s = none := by
    induction n generalizing o with
    | zero => omega
    | succ n ih =>
      rw [outermostWithin] at hrun
      obtain ⟨parent, hparent, hrun⟩ := Outcome.bind_eq_ok.1 hrun
      obtain ⟨-, rfl⟩ := parentOp_eq_ok hparent
      cases habove : ctx.above o with
      | none =>
        simp only [habove, Outcome.pure_eq_ok] at hrun
        exact hrun ▸ habove
      | some p =>
        simp only [habove] at hrun
        have := hdepth o p habove
        exact ih (by omega) hrun
  exact key (by have := hsize o ho; omega) hrun

theorem scopeOf_spec (h : ctx.Sound) (ho : ctx.HasOp o) {s : OpRef}
    (hrun : scopeOf ctx o = .ok s) : ctx.ScopeOf o s := by
  have hkind {q : OpRef} {row : Operation} (hrow : ctx.op q = .ok row) :
      ctx.kindOf q = row.kind := readOp_of_op hrow _ _
  rw [scopeOf] at hrun
  obtain ⟨function, hfunction, hrun⟩ := Outcome.bind_eq_ok.1 hrun
  cases function with
  | some f =>
    obtain rfl := Outcome.pure_eq_ok.1 hrun
    obtain ⟨haround, ⟨row, hrow, hfunc⟩, hfirst⟩ := enclosing_eq_some h.grounded hfunction
    refine .function haround ((hkind hrow).trans (of_decide_eq_true hfunc))
      fun q hq hw hqkind => by_contra fun hne => ?_
    obtain ⟨p, hp, hqp⟩ := hq
    obtain ⟨row', hrow'⟩ :=
      hasOp_iff.1 (h.coherent.hasOp_of_within hqp (h.coherent.hasOp_of_above hp).2)
    have hnot := hfirst q ⟨p, hp, hqp⟩ hw hne row' hrow'
    exact of_decide_eq_false hnot ((hkind hrow').symm.trans hqkind)
  | none =>
    refine .outermost (fun q hq hqkind => ?_) (outermostWithin_spec hrun)
      (outermostWithin_top h ho hrun)
    obtain ⟨p, hp, hqp⟩ := hq
    obtain ⟨row, hrow⟩ :=
      hasOp_iff.1 (h.coherent.hasOp_of_within hqp (h.coherent.hasOp_of_above hp).2)
    have hnot := h.grounded.enclosing_eq_none h.coherent ho hfunction q ⟨p, hp, hqp⟩ row hrow
    exact of_decide_eq_false hnot ((hkind hrow).symm.trans hqkind)

/-- If the scope of a region has no other region, each one in it is in this one. -/
theorem hasOther_eq_false (h : ctx.Sound) (ho : ctx.HasOp o)
    (hrun : hasOther ctx o = .ok false) {s other : OpRef} (hs : ctx.ScopeOf o s)
    (hw : ctx.Within other s) (hkind : ctx.kindOf other = .parallel) : ctx.Within other o := by
  rw [hasOther] at hrun
  simp only [Outcome.bind_eq_ok, Outcome.pure_eq_ok, Prod.exists] at hrun
  obtain ⟨s', hs', u, stopped, hwalk, rfl⟩ := hrun
  obtain rfl := hs.unique (scopeOf_spec h ho hs')
  obtain ⟨a, _, _, step, hoa, -, hvisit, hstop, hadvance⟩ := walk_unstopped h.coherent hwalk hw
  simp only [Outcome.bind_eq_ok] at hvisit
  obtain ⟨answer, hparallel, hvisit⟩ := hvisit
  obtain ⟨-, rfl⟩ := isKind_eq_ok hparallel
  split at hvisit
  · rename_i hne
    simp only [Outcome.pure_eq_ok, Prod.mk.injEq, true_and] at hvisit
    obtain rfl := hadvance hvisit.symm
    simp [hkind] at hne
  · obtain ⟨inside, hinside, hvisit⟩ := Outcome.bind_eq_ok.1 hvisit
    cases inside with
    | true => exact hoa.trans (within_of_isAncestorWithin hinside)
    | false =>
      simp only [Bool.false_eq_true, if_false, Outcome.pure_eq_ok, Prod.mk.injEq, true_and] at hvisit
      exact absurd hvisit.symm hstop

/-! ## Patterns that do not apply -/

/-- The rows of an operation and of the block that lists it. -/
theorem rows_of_mem (h : ctx.Coherent) {b : BlockRef} (ho : o ∈ ctx.opsOf b) :
    ∃ row block, ctx.op o = .ok row ∧ row.parent = some b ∧ ctx.block b = .ok block ∧
      block.ops = ctx.opsOf b := by
  have hparent : ctx.blockOf o = some b := (h.ops.owner_iff o b).2 ho
  obtain ⟨row, hrow⟩ := hasOp_iff.1 (h.hasOp_of_mem ho)
  obtain ⟨block, hblock⟩ := hasBlock_iff.1 (h.hasBlock_of_blockOf hparent)
  exact ⟨row, block, hrow, (readOp_of_op hrow _ _).symm.trans hparent, hblock,
    (readBlock_of_block hblock _ _).symm⟩

/-- What is behind something is not the first of its block. -/
theorem head?_ne_of_behind (h : ctx.Coherent) {b : BlockRef} {before after : List OpRef}
    (hops : ctx.opsOf b = before ++ o :: after) (hbefore : before ≠ []) :
    (ctx.opsOf b).head? ≠ some o := by
  have hnodup := h.ops.nodup b
  rw [hops] at hnodup ⊢
  rw [List.head?_append_of_ne_nil _ hbefore]
  exact fun hhead =>
    (List.nodup_append.1 hnodup).2.2 o (List.mem_of_head? hhead) o List.mem_cons_self rfl

theorem previous_ok (h : ctx.Coherent) {b : BlockRef} {before after : List OpRef}
    {previous : OpRef} (hops : ctx.opsOf b = before ++ previous :: o :: after) :
    ctx.previous o = .ok (some previous) := by
  obtain ⟨row, block, hrow, hrow', hblock, hblock'⟩ :=
    rows_of_mem h (b := b) (show o ∈ _ by simp [hops])
  rw [hops] at hblock'
  have hnodup := hops ▸ h.ops.nodup b
  rw [List.append_cons, List.nodup_append] at hnodup
  have hindex : block.ops.idxOf? o = some (before.length + 1) := by
    refine Position.idxOf?_eq_some_iff.2 ⟨before ++ [previous], after, ?_, fun hm => ?_, by simp⟩
    · rw [hblock']
      simp
    · exact hnodup.2.2 _ hm _ List.mem_cons_self rfl
  rw [hblock'] at hindex
  simp only [Context.previous, hrow, Outcome.ok_bind, hrow', hblock, hblock', hindex]
  simp [pure, Except.pure]

theorem absorbAll_moved {n moved moved' : Nat} {e e' : Editor} {stop : Stop}
    (hrun : absorbAll o n e moved = .ok (e', moved', stop)) : moved ≤ moved' := by
  induction n generalizing e moved with
  | zero =>
    simp only [absorbAll, Outcome.pure_eq_ok, Prod.mk.injEq] at hrun
    exact hrun.2.1.le
  | succ n ih =>
    have hwall {stop' : Stop} (hrun : (pure (e, moved, stop') : Except Fault _) =
        .ok (e', moved', stop)) : moved ≤ moved' := by
      simp only [Outcome.pure_eq_ok, Prod.mk.injEq] at hrun
      exact hrun.2.1.le
    rw [absorbAll] at hrun
    obtain ⟨found, -, hrun⟩ := Outcome.bind_eq_ok.1 hrun
    cases found with
    | none => exact hwall hrun
    | some previous =>
      simp only [Outcome.bind_eq_ok] at hrun
      obtain ⟨region, -, hrun⟩ := hrun
      split at hrun
      · exact hwall hrun
      obtain ⟨readOnly, -, hrun⟩ := Outcome.bind_eq_ok.1 hrun
      split at hrun
      · exact hwall hrun
      obtain ⟨used, -, hrun⟩ := Outcome.bind_eq_ok.1 hrun
      split at hrun
      · exact hwall hrun
      obtain ⟨e₁, -, hrun⟩ := Outcome.bind_eq_ok.1 hrun
      exact (Nat.le_succ moved).trans (ih hrun)

/-- Uses are in the region if the operations that hold the values are. -/
theorem usedOnlyInside_ok (h : ctx.Sound) {region : OpRef}
    (hused : ∀ v ∈ ctx.results o, ∀ q, v ∈ ctx.heldBy q → ctx.Within q region) :
    usedOnlyInside ctx o region = .ok true := by
  refine Outcome.allM_eq_true.2 fun v hv => Outcome.allM_eq_true.2 fun u hu => ?_
  have hheld := (h.coherent.uses.mem_iff v u).1 hu
  exact (h.grounded.isAncestor_iff h.coherent (h.coherent.hasOp_of_use hu)).2
    (hused v hv u.user (List.mem_of_getElem? hheld))

theorem usedOnlyInside_iff (h : ctx.Sound) {region : OpRef} :
    usedOnlyInside ctx o region = .ok true ↔
      ∀ v ∈ ctx.results o, ∀ q, v ∈ ctx.heldBy q → ctx.Within q region := by
  refine ⟨fun hrun v hv q hq => ?_, usedOnlyInside_ok h⟩
  obtain ⟨i, hi⟩ := List.mem_iff_getElem?.1 hq
  exact usedOnlyInside_eq_true hrun v hv ⟨q, i⟩ ((h.coherent.uses.mem_iff v ⟨q, i⟩).2 hi)

/-- A region behind something is not merged because no other region is in its scope, or
    because it is behind a wall. -/
theorem merge?_eq_none (h : ctx.Sound) {b : BlockRef} {before after : List OpRef}
    {previous : OpRef} (hkind : ctx.kindOf o = .parallel)
    (hops : ctx.opsOf b = before ++ previous :: o :: after)
    (hrun : merge? { context := ctx } o = .ok none) :
    hasOther ctx o = .ok false ∨ ctx.kindOf previous ≠ .parallel ∧
      ¬(ctx.isReadOnly previous = .ok true ∧ usedOnlyInside ctx previous o = .ok true) := by
  have hc := h.coherent
  obtain ⟨row, block, hrow, hrow', hblock, hblock'⟩ :=
    rows_of_mem hc (b := b) (show o ∈ _ by simp [hops])
  have hhead := head?_ne_of_behind hc
    (show ctx.opsOf b = (before ++ [previous]) ++ o :: after by simpa using hops) (by simp)
  rw [hops] at hblock' hhead
  rw [merge?, isKind_ok (hasOp_iff.2 ⟨row, hrow⟩), Outcome.ok_bind] at hrun
  simp only [hkind, decide_true, Bool.not_true, Bool.false_eq_true, if_false, hrow, Outcome.ok_bind,
    hrow', hblock, hblock', if_neg hhead] at hrun
  obtain ⟨other, hother, hrun⟩ := Outcome.bind_eq_ok.1 hrun
  cases other with
  | false => exact .inl hother
  | true =>
    simp only [Bool.not_true, Bool.false_eq_true, if_false] at hrun
    obtain ⟨⟨e₁, moved, stop⟩, hall, hrun⟩ := Outcome.bind_eq_ok.1 hrun
    have hprevious : ctx.HasOp previous := hc.hasOp_of_mem (b := b) (by simp [hops])
    simp only [absorbAll, previous_ok hc hops, Outcome.ok_bind, isKind_ok hprevious] at hall
    refine .inr ⟨fun hregion => ?_, ?_⟩
    · simp only [hregion, decide_true, if_true, Outcome.pure_eq_ok, Prod.mk.injEq] at hall
      obtain ⟨-, -, rfl⟩ := hall
      simp at hrun
    · rintro ⟨hreads, hused⟩
      split at hall
      · simp only [Outcome.pure_eq_ok, Prod.mk.injEq] at hall
        obtain ⟨-, -, rfl⟩ := hall
        simp at hrun
      · simp only [hreads, hused, Outcome.ok_bind, Bool.not_true, Bool.false_eq_true, if_false,
          Outcome.bind_eq_ok] at hall
        obtain ⟨e₂, -, hall⟩ := hall
        have hmoved := absorbAll_moved hall
        cases stop with
        | atRegion p => simp at hrun
        | atWall =>
          simp only [Outcome.pure_eq_ok] at hrun
          rw [if_neg (by omega)] at hrun
          cases hrun

theorem soleParent?_ok (h : ctx.Coherent) {b : BlockRef} {p : OpRef}
    (hkind : ctx.kindOf o = .parallel) (ho : o ∈ ctx.opsOf b) (hp : ctx.holder b = some p)
    (hlength : (ctx.opsOf b).length = 2) (hresults : ctx.results p = []) :
    soleParent? ctx o = .ok (some p) := by
  obtain ⟨row, block, hrow, hrow', hblock, hops⟩ := rows_of_mem h ho
  have habove : ctx.above o = some p := (h.above_of_mem ho).trans hp
  rw [soleParent?, isKind_ok (h.hasOp_of_mem ho), Outcome.ok_bind]
  simp only [hkind, decide_true, Bool.not_true, Bool.false_eq_true, if_false, hrow, Outcome.ok_bind,
    hrow', hblock, hops, hlength, h.parentOp_ok (h.hasOp_of_mem ho), habove, hresults]
  rfl

theorem isHollow_ok (h : ctx.Coherent) (t : ctx.Team o) : isHollow ctx o = .ok false := by
  have hbody : ctx.blockAt o 0 = .ok t.body :=
    h.blockAt_ok (r := t.region) (by simp [t.regions]) (by simp [t.blocks])
  obtain ⟨block, hblock⟩ :=
    hasBlock_iff.1 (h.hasBlock_of_mem (b := t.body) (r := t.region) (by simp [t.blocks]))
  have hops : block.ops = t.contents ++ [t.last] := (readBlock_of_block hblock _ _).symm.trans t.ops
  simp only [isHollow, hbody, Outcome.ok_bind, terminator?, hblock, hops]
  rw [List.getLast?_concat]
  rfl

section

variable (h : ctx.Stable root) {b : BlockRef} {p : OpRef} (hp : ctx.Within p root)
  (ho : o ∈ ctx.opsOf b) (hb : ctx.holder b = some p) (hlength : (ctx.opsOf b).length = 2)
  (hresults : ctx.results p = [])

include h hp ho hb hlength hresults

/-- A region that is alone in a loop leaves it. -/
theorem leaveLoop?_ne_none (hkind : ctx.kindOf p = .loop) (hparallel : ctx.kindOf o = .parallel) :
    leaveLoop? { context := ctx } o ≠ .ok none := by
  intro hrun
  have hc := h.sound.coherent
  have hw : ctx.Within o root := (within_of_above ((hc.above_of_mem ho).trans hb)).trans hp
  obtain ⟨team⟩ := h.nonempty_team hw hparallel
  simp [leaveLoop?, soleParent?_ok hc hparallel ho hb hlength hresults,
    isKind_ok (hc.hasOp_of_holder hb), hkind, isHollow_ok hc team] at hrun

/-- A region that is alone in the first branch of a conditional leaves it. -/
theorem leaveConditional?_ne_none (hkind : ctx.kindOf p = .conditional)
    (hparallel : ctx.kindOf o = .parallel) (hfirst : ctx.blockAt p 0 = .ok b) :
    leaveConditional? { context := ctx } o ≠ .ok none := by
  intro hrun
  have hc := h.sound.coherent
  have hw : ctx.Within o root := (within_of_above ((hc.above_of_mem ho).trans hb)).trans hp
  obtain ⟨team⟩ := h.nonempty_team hw hparallel
  obtain ⟨row, -, hrow, hparent, -⟩ := rows_of_mem hc ho
  simp [leaveConditional?, soleParent?_ok hc hparallel ho hb hlength hresults,
    isKind_ok (hc.hasOp_of_holder hb), hkind, isHollow_ok hc team, hfirst, hrow, hparent] at hrun

end

/-! ## The normal form -/

/-- No pattern applies to anything nested in the root. -/
def AtRest (ctx : Context) (root : OpRef) : Prop :=
  ∀ o, ctx.Within o root → o ≠ root → ctx.kindOf o = .parallel →
    ∀ pattern ∈ patterns, pattern.attempt { context := ctx } o = .ok none

theorem atRest_of_rests {greedy : Greedy} (hpatterns : greedy.patterns = patterns)
    (h : ctx.Stable root) {queue : List OpRef} (hqueue : ctx.nested root = .ok queue)
    (hrests : ∀ o ∈ queue, greedy.Rests root ctx o) : AtRest ctx root := by
  intro o ho hne hkind pattern hpattern
  have hex := h.sound.coherent.hasOp_of_within' ho h.hasRoot
  have hmem : o ∈ queue := by
    obtain ⟨tree, htree, hqueue⟩ := Outcome.bind_eq_ok.1 hqueue
    obtain rfl := Outcome.pure_eq_ok.1 hqueue
    have hmem := (h.sound.coherent.mem_subtree_iff htree).2 ho
    obtain ⟨-, ls, -, rfl⟩ := subtreeWithin_succ_eq_ok htree
    exact (List.mem_cons.1 hmem).resolve_left hne
  obtain ⟨kind, hkind', hnone⟩ := hrests o hmem hne (Bool.not_eq_true _ ▸ h.live o ho)
    ((h.sound.grounded.isAncestor_iff h.sound.coherent hex).2 ho)
  obtain ⟨-, rfl⟩ := kind_eq_ok hkind'
  rw [hpatterns, hkind] at hnone
  refine Greedy.firstApplied_eq_none hnone hpattern ?_
  -- all patterns look at parallel regions
  simp only [patterns, List.mem_cons, List.not_mem_nil, or_false] at hpattern
  rcases hpattern with rfl | rfl | rfl <;> simp [merge, leaveLoop, leaveConditional]

theorem normal_of_atRest (h : ctx.Stable root) (hrest : AtRest ctx root) : ctx.Normal root := by
  have hc := h.sound.coherent
  have hne {b : BlockRef} {q : OpRef} (hq : q ∈ ctx.opsOf b) : q ≠ root := by
    rintro rfl
    exact hc.ops.not_mem_of_free h.detached b hq
  have hin {b : BlockRef} {p q : OpRef} (hb : ctx.holder b = some p) (hp : ctx.Within p root)
      (hq : q ∈ ctx.opsOf b) : ctx.Within q root :=
    (within_of_above ((hc.above_of_mem hq).trans hb)).trans hp
  refine ⟨fun b p hb hp before first second after hops => ?_,
    fun b p hb hp hkind hresults hlength o ho hparallel => ?_,
    fun b p r hr hb hp hkind hresults hlength o ho hparallel => ?_,
    fun b p hb hp before previous o after hops hparallel hkind hreads hused s hs other hw hother => ?_⟩
  · rintro ⟨hfirst, hsecond⟩
    have hmem : first ∈ ctx.opsOf b := by simp [hops]
    have hmem' : second ∈ ctx.opsOf b := by simp [hops]
    have hattempt := hrest second (hin hb hp hmem') (hne hmem') hsecond merge (by simp [patterns])
    rcases merge?_eq_none h.sound hsecond hops hattempt with hother | ⟨hnot, -⟩
    · -- the first region would be another one in the scope of the second
      have hbeside : ctx.above first = ctx.above second := by
        rw [hc.above_of_mem hmem, hc.above_of_mem hmem']
      have habove : ctx.above second = some p := (hc.above_of_mem hmem').trans hb
      obtain ⟨s, hs, -⟩ := Outcome.bind_eq_ok.1 hother
      have hscope := scopeOf_spec h.sound (hc.hasOp_of_mem hmem') hs
      have hup : ctx.Within p s := by
        cases hscope with
        | function haround =>
          obtain ⟨q, hq, hw⟩ := haround
          exact Option.some.inj (habove.symm.trans hq) ▸ hw
        | outermost _ hw htop =>
          rcases within_iff_above.1 hw with rfl | ⟨q, hq, hw⟩
          · rw [habove] at htop
            cases htop
          · exact Option.some.inj (habove.symm.trans hq) ▸ hw
      have hw := hasOther_eq_false h.sound (hc.hasOp_of_mem hmem') hother hscope
        ((within_of_above (hbeside.trans habove)).trans hup) hfirst
      obtain rfl := h.sound.grounded.eq_of_siblings (hbeside.trans habove) habove hw
      have hnodup := hops ▸ hc.ops.nodup b
      rw [List.nodup_append, List.nodup_cons] at hnodup
      exact hnodup.2.1.1 List.mem_cons_self
    · exact hnot hfirst
  · exact leaveLoop?_ne_none h hp ho hb hlength hresults hkind hparallel
      (hrest o (hin hb hp ho) (hne ho) hparallel leaveLoop (by simp [patterns]))
  · have hholder := hc.holder_of_mem (List.mem_of_head? hr) hb
    obtain ⟨r', rest, c, hregions, hblocks, -⟩ := h.branch_block hp hkind
    rw [hregions] at hr
    obtain rfl := Option.some.inj hr
    rw [hblocks, List.mem_singleton] at hb
    subst hb
    exact leaveConditional?_ne_none h hp ho hholder hlength hresults hkind hparallel
      (hc.blockAt_ok (r := r') (by simp [hregions]) (by simp [hblocks]))
      (hrest o (hin hholder hp ho) (hne ho) hparallel leaveConditional (by simp [patterns]))
  · have hmem : o ∈ ctx.opsOf b := by simp [hops]
    have hattempt := hrest o (hin hb hp hmem) (hne hmem) hparallel merge (by simp [patterns])
    rcases merge?_eq_none h.sound hparallel hops hattempt with hnone | ⟨-, hnot⟩
    · exact hasOther_eq_false h.sound (hc.hasOp_of_mem hmem) hnone hs hw hother
    · exact absurd ⟨hreads, usedOnlyInside_ok h.sound hused⟩ hnot

/-- A run that reaches a fixpoint leaves a valid program in normal form. -/
theorem run_normal {path text : String} {findings : Findings}
    (hread : Context.empty.read path text = (.ok root, ctx))
    (hfindings : ctx.findings root = .ok findings) (hvalid : findings.isEmpty)
    (maxPasses : Nat) {result : GreedyResult}
    (hrun : { patterns, maxPasses : Greedy }.run ctx root = .ok (ctx', result))
    (hfixpoint : result.reachedFixpoint) : ctx'.Normal root := by
  have h := stable_of_read hread hfindings hvalid
  have h' := (steps_of_reaches rfl h (Greedy.run_reaches hrun)).stable h
  obtain ⟨queue, hqueue, hrests⟩ := Greedy.run_rests hrun hfixpoint
  exact normal_of_atRest h' (atRest_of_rests rfl h' hqueue hrests)

/-- A loop that holds a region alone, and another region behind it and a constant. -/
def regionInLoop : String :=
  "func.func @f \x7btype = func.fn(core.nil, core.i32)\x7d \x7b
  ^bb0(%n: core.i32):
    scf.for %n, %n, %n \x7b
      ^bb1(%i: core.i32):
        omp.parallel \x7b
          test.use %i
          omp.terminator
        \x7d
        scf.yield
    \x7d
    %c = arith.const \x7bvalue = 1\x7d : core.i32
    omp.parallel \x7b
      test.use %c
      omp.terminator
    \x7d
    func.return
\x7d"

set_option maxRecDepth 100000 in
/-- The first region leaves the loop; the second takes in the constant and is fused with it. -/
theorem run_normal_regionInLoop : ∃ root ctx ctx', ∃ result : GreedyResult,
    Context.empty.read "f" regionInLoop = (.ok root, ctx) ∧
      { patterns, maxPasses := 47 : Greedy }.run ctx root = .ok (ctx', result) ∧
        result.reachedFixpoint ∧ result.changes = 2 ∧ ctx'.Normal root := by
  have hends : endsWith "f" regionInLoop 47 (fun _ _ _ result =>
    result.reachedFixpoint && decide (result.changes = 2)) := endsWith_ofList (by decide +kernel)
  obtain ⟨root, ctx, findings, ctx', result, hread, hfindings, hvalid, hrun, htest⟩ :=
    exists_of_endsWith hends
  obtain ⟨hfixpoint, hchanges⟩ : result.reachedFixpoint ∧ result.changes = 2 := by
    simpa using htest
  exact ⟨root, ctx, ctx', result, hread, hrun, hfixpoint, hchanges,
    run_normal hread hfindings hvalid 47 hrun hfixpoint⟩

end Parallel

end Offload
