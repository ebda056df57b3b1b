import Offload.Proofs.Ir.AbreastNesting
import Offload.Proofs.Parallel.Step
import Offload.Proofs.Pattern.AbreastEditor

/-!
# Parallel patterns that go alike

The parallel patterns, applied to paired operations of two contexts that match, decide
alike, and what they leave matches again (`attempt_agree`). They look down from the
operation, and up from it no farther than to the function around it; the tops are
functions, so nothing around the tops matters.
-/

namespace Offload

open Context

/-! ## Looking around -/

section Look

variable {b : Border} {p : Pairing} {ctx ctx' : Context} {root root' o o' a a' : OpRef}
  (h : Match b p ctx ctx')

include h

theorem Match.kindOf_top (htop : b.top o) : ctx.kindOf o = .func := by
  obtain ⟨o', ho⟩ := h.top htop
  obtain ⟨row, _, hrow, -, hsame⟩ := h.op ho
  rw [kindOf, readOp_of_op hrow]
  exact hsame.func htop

/-- What is of another kind than functions is below a top. -/
theorem Match.inner_of_kindOf (ho : p.op o o') (hkind : ctx.kindOf o ≠ .func) :
    p.Inner b o o' := ⟨ho, fun htop => hkind (h.kindOf_top htop)⟩

theorem Match.results_isEmpty (ho : p.op o o') :
    (ctx.results o).isEmpty = (ctx'.results o').isEmpty := by
  obtain ⟨row, row', hrow, hrow', hsame⟩ := h.op ho
  rw [results_eq_readOp, results_eq_readOp, readOp_of_op hrow, readOp_of_op hrow',
    Bool.eq_iff_iff, List.isEmpty_iff_length_eq_zero, List.isEmpty_iff_length_eq_zero,
    hsame.results.length_eq]

namespace Parallel

theorem scopeOf_agree (f : Footing b p root root' ctx ctx') (ho : p.Inner b o o')
    (hw : ctx.Within o root) : Agree p.op (scopeOf ctx o) (scopeOf ctx' o') := by
  refine (f.enclosing h ho).bind_ok fun a a' hrun _ ha => ?_
  cases ha with
  | some ha => exact .pure ha
  | none =>
    -- the top around the operation is a function
    obtain ⟨t, htop, haround⟩ := f.exists_top h ho hw
    obtain ⟨t', ht⟩ := h.top htop
    obtain ⟨row, _, hrow, -, hsame⟩ := h.op ht
    have hkind := f.left.sound.grounded.enclosing_eq_none f.left.sound.coherent (h.hasOp ho.1).1
      hrun t haround row hrow
    exact absurd (hsame.func htop) (of_decide_eq_false hkind)

theorem hasOther_agree (f : Footing b p root root' ctx ctx') (ho : p.Inner b o o')
    (hw : ctx.Within o root) : Agree (· = ·) (hasOther ctx o) (hasOther ctx' o') := by
  refine (scopeOf_agree h f ho hw).bind fun scope scope' hscope => ?_
  refine Agree.bind (r := (· = ·)) ?_ fun _ _ e => .pure (congrArg Prod.snd e)
  refine h.walkWithin (fun x x' hx => ?_) _ _ hscope
  refine (h.isKind hx .parallel).bind ?_
  rintro parallel _ rfl
  cases parallel with
  | false => exact .pure rfl
  | true =>
    refine (f.isAncestor h hx ho.1).bind ?_
    rintro inside _ rfl
    cases inside <;> exact .pure rfl

theorem usedOnlyInside_agree (f : Footing b p root root' ctx ctx') (ho : p.Inner b o o')
    (ha : p.op a a') :
    Agree (· = ·) (usedOnlyInside ctx o a) (usedOnlyInside ctx' o' a') :=
  .allM (h.results ho) fun _ _ hv => .allM (h.uses hv) fun _ _ hu => f.isAncestor h hu.1 ha

theorem soleParent?_agree (ho : p.Inner b o o') :
    Agree (Option.Rel p.op) (soleParent? ctx o) (soleParent? ctx' o') := by
  refine (h.isKind ho.1 .parallel).bind ?_
  rintro parallel _ rfl
  cases parallel with
  | false => exact .pure .none
  | true =>
    refine (h.op_agree ho.1).bind fun row row' hrow => ?_
    obtain ⟨hx, hx'⟩ | ⟨k, k', hx, hx', hk⟩ := rel_cases (hrow.parent.inner ho.2)
    · simp only [hx, hx']
      exact .pure .none
    simp only [hx, hx']
    refine (h.block_agree hk).bind fun block block' hblock => ?_
    refine .ite (by rw [hblock.ops.length_eq]) (fun _ => .pure .none) fun _ => ?_
    refine (h.parentOp ho).bind fun t t' ht => ?_
    cases ht with
    | none => exact .pure .none
    | some ht =>
      refine .pure ?_
      rw [h.results_isEmpty ht]
      split
      · exact .some ht
      · exact .none

theorem isHollow_agree (ho : p.op o o') : Agree (· = ·) (isHollow ctx o) (isHollow ctx' o') := by
  refine (h.blockAt ho 0).bind fun k k' hk => ?_
  refine (h.terminator? hk).bind fun last last' hlast => .pure ?_
  cases hlast <;> rfl

end Parallel

end Look

namespace Parallel

variable {s : Outset} {p : Pairing} {e e' : Editor} {root root' o o' a a' : OpRef}
  {k k' : BlockRef}

/-! ## Interchange -/

section Interchange

variable (hempty : s.border.attributes .empty .empty)

include hempty

theorem insertBarrier_agree (h : Editor.Paired s p e e') (location location' : Location)
    (hk : p.block k k') : Agree (Editor.Follows s p) (insertBarrier e location k)
      (insertBarrier e' location' k') := by
  refine (h.abreast.terminator? hk).bind fun last last' hlast => ?_
  cases hlast with
  | none => exact .pure h.follows
  | some hlast =>
    refine (h.abreast.createOp_bare location location' .barrier hempty).bind ?_
    rintro ⟨ctx, barrier⟩ ⟨ctx', barrier'⟩ ⟨q, hle, hbarrier, h₁⟩
    exact ((h.withContext h₁ hle).insertOpBefore ⟨hle.op hlast.1, hlast.2⟩ hbarrier).mono
      fun _ _ h₂ => ⟨q, hle, h₂⟩

theorem swap_agree (h : Editor.Paired s p e e') (ho : p.Inner s.border o o')
    (ha : p.Inner s.border a a') (hk : p.block k k') (withBarrier : Bool) :
    Agree (Editor.Follows s p) (swap e o a k withBarrier) (swap e' o' a' k' withBarrier) := by
  refine (h.moveOpBefore ho ha).bind fun e₁ e₁' h₁ => ?_
  refine (h₁.abreast.blockAt ho.1 0).bind fun body body' hbody => ?_
  refine (h₁.abreast.terminator? hbody).bind fun last last' hlast => ?_
  cases hlast with
  | none => exact .pure h₁.follows
  | some hlast =>
    refine (h₁.abreast.block_agree hbody).bind fun row row' hrow => ?_
    refine (h₁.moveOpsTo hk 0 (List.rel_filter (fun x x' hx => ?_) hrow.ops)).bind
      fun e₂ e₂' h₂ => ?_
    · simp [p.op.iff hx.1 hlast.1]
    have hend {q : Pairing} {e e' : Editor} (hle : p.Le q) (h : Editor.Paired s q e e') :
        Agree (Editor.Follows s p) (e.moveOpBefore a _) (e'.moveOpBefore a' _) :=
      (h.moveOpBefore ⟨hle.op ha.1, ha.2⟩ ⟨hle.op hlast.1, hlast.2⟩).mono
        fun _ _ h' => ⟨q, hle, h'⟩
    cases withBarrier with
    | false => exact hend (.refl p) h₂
    | true =>
      refine (h₂.abreast.op_agree ho.1).bind fun row row' _ => ?_
      refine (insertBarrier_agree hempty h₂ row.location row'.location hk).bind ?_
      rintro e₃ e₃' ⟨q, hle, h₃⟩
      exact hend hle h₃

theorem leaveLoop?_agree (h : Editor.Paired s p e e') (ho : p.Inner s.border o o') :
    Agree (Option.Rel (Editor.Follows s p)) (leaveLoop? e o) (leaveLoop? e' o') := by
  refine (soleParent?_agree h.abreast.toMatch ho).bind fun a a' ha => ?_
  cases ha with
  | none => exact .pure .none
  | @some a a' ha =>
    refine (h.abreast.isKind ha .loop).bind_ok ?_
    rintro loop _ hkind - rfl
    cases loop with
    | false => exact .pure .none
    | true =>
      have hkind := (isKind_eq_ok hkind).2
      refine (isHollow_agree h.abreast.toMatch ho.1).bind ?_
      rintro hollow _ rfl
      cases hollow with
      | true => exact .pure .none
      | false =>
        refine (h.abreast.blockAt ha 0).bind fun k k' hk => ?_
        have hinner := h.abreast.inner_of_kindOf ha (by rw [of_decide_eq_true hkind.symm]; decide)
        exact (swap_agree hempty h ho hinner hk true).bind fun _ _ h' => .pure (.some h')

theorem leaveConditional?_agree (h : Editor.Paired s p e e') (ho : p.Inner s.border o o') :
    Agree (Option.Rel (Editor.Follows s p)) (leaveConditional? e o) (leaveConditional? e' o') := by
  refine (soleParent?_agree h.abreast.toMatch ho).bind fun a a' ha => ?_
  cases ha with
  | none => exact .pure .none
  | @some a a' ha =>
    refine (h.abreast.isKind ha .conditional).bind_ok ?_
    rintro conditional _ hkind - rfl
    cases conditional with
    | false => exact .pure .none
    | true =>
      have hkind := (isKind_eq_ok hkind).2
      refine (h.abreast.blockAt ha 0).bind fun k k' hk => ?_
      refine (h.abreast.op_agree ho.1).bind fun row row' hrow => ?_
      refine .ite (not_congr ?_) (fun _ => .pure .none) fun _ => ?_
      · obtain ⟨hx, hx'⟩ | ⟨c, c', hx, hx', hc⟩ := rel_cases (hrow.parent.inner ho.2)
        · rw [hx, hx']
          simp
        · rw [hx, hx', Option.some.injEq, Option.some.injEq, p.block.iff hc hk]
      refine (isHollow_agree h.abreast.toMatch ho.1).bind ?_
      rintro hollow _ rfl
      cases hollow with
      | true => exact .pure .none
      | false =>
        have hinner := h.abreast.inner_of_kindOf ha (by rw [of_decide_eq_true hkind.symm]; decide)
        exact (swap_agree hempty h ho hinner hk false).bind fun _ _ h' => .pure (.some h')

theorem fuse_agree (h : Editor.Paired s p e e') (ho : p.Inner s.border o o')
    (ha : p.Inner s.border a a') :
    Agree (Editor.Follows s p) (fuse e o a) (fuse e' o' a') := by
  refine (h.abreast.op_agree ho.1).bind fun row row' _ => ?_
  refine (h.abreast.blockAt ha.1 0).bind fun target target' htarget => ?_
  refine (h.abreast.createOp_bare row.location row'.location .barrier hempty).bind ?_
  rintro ⟨ctx, barrier⟩ ⟨ctx', barrier'⟩ ⟨q, hle, hbarrier, h₁⟩
  refine ((h.withContext h₁ hle).replaceTerminator (hle.block htarget) hbarrier).bind
    fun e₂ e₂' h₂ => ?_
  refine (h₂.abreast.blockAt (hle.op ho.1) 0).bind fun source source' hsource => ?_
  refine (h₂.abreast.block_agree hsource).bind fun row row' hrow => ?_
  refine (h₂.moveOpsToEnd (hle.block htarget) hrow.ops).bind fun e₃ e₃' h₃ => ?_
  exact (h₃.eraseOp ⟨hle.op ho.1, ho.2⟩).mono fun _ _ h₄ => ⟨q, hle, h₄⟩

end Interchange

/-! ## Merging -/

theorem absorb_agree (h : Editor.Paired s p e e') (ho : p.op o o') (ha : p.Inner s.border a a') :
    Agree (Editor.Follows s p) (absorb e o a) (absorb e' o' a') := by
  refine (h.abreast.blockAt ho 0).bind fun body body' hbody => ?_
  refine (h.cloneOpAtStart ha hbody).bind ?_
  rintro ⟨e₁, copy⟩ ⟨e₁', copy'⟩ ⟨q, hle, hcopy, h₁⟩
  exact (h₁.replaceOpWithValues ⟨hle.op ha.1, ha.2⟩ (h₁.abreast.results hcopy)).mono
    fun _ _ h₂ => ⟨q, hle, h₂⟩

/-- The same has stopped the way back. -/
inductive Stop.Paired (s : Border) (p : Pairing) : Stop → Stop → Prop
  | atRegion {t t' : OpRef} (h : p.Inner s t t') : Stop.Paired s p (.atRegion t) (.atRegion t')
  | atWall : Stop.Paired s p .atWall .atWall

theorem absorbAll_agree (f : Footing s.border s.pairing root root' s.left s.right)
    (h₀ : Match s.border s.pairing s.left s.right) {n n' moved : Nat}
    (h : Editor.Paired s p e e') (ho : p.Inner s.border o o')
    (hs : e.context.Stable root) (hs' : e'.context.Stable root')
    (hw : e.context.Within o root) (hw' : e'.context.Within o' root')
    (hne : o ≠ root) (hne' : o' ≠ root') (hkind : e.context.kindOf o = .parallel)
    (hkind' : e'.context.kindOf o' = .parallel) (hn : n = n') :
    Agree (fun x x' => ∃ q, p.Le q ∧ Editor.Paired s q x.1 x'.1 ∧ x.2.1 = x'.2.1 ∧
        Stop.Paired s.border q x.2.2 x'.2.2)
      (absorbAll o n e moved) (absorbAll o' n' e' moved) := by
  subst hn
  induction n generalizing e e' p moved with
  | zero => exact .pure ⟨p, .refl p, h, rfl, .atWall⟩
  | succ n ih =>
    have hm := h.abreast.toMatch
    have f₀ := f.abreast h₀ h.abreast hs.sound hs'.sound
    rw [absorbAll, absorbAll]
    refine (hm.previous ho).bind_ok fun a a' hprevious hprevious' ha => ?_
    cases ha with
    | none => exact .pure ⟨p, .refl p, h, rfl, .atWall⟩
    | @some a a' ha =>
      refine (hm.isKind ha.1 .parallel).bind_ok ?_
      rintro parallel _ hregion hregion' rfl
      have hregion := (isKind_eq_ok hregion).2
      have hregion' := (isKind_eq_ok hregion').2
      cases parallel with
      | true => exact .pure ⟨p, .refl p, h, rfl, .atRegion ha⟩
      | false =>
        refine (hm.isReadOnly ha.1).bind_ok ?_
        rintro readOnly _ hreadOnly hreadOnly' rfl
        cases readOnly with
        | false => exact .pure ⟨p, .refl p, h, rfl, .atWall⟩
        | true =>
          refine (usedOnlyInside_agree hm f₀ ha ho.1).bind_ok ?_
          rintro used _ hused hused' rfl
          cases used with
          | false => exact .pure ⟨p, .refl p, h, rfl, .atWall⟩
          | true =>
            refine (absorb_agree h ho.1 ha).bind_ok ?_
            rintro e₁ e₁' hrun hrun' ⟨q, hle, h₁⟩
            obtain ⟨hstep, hw₁, hkind₁⟩ := absorb_step hs (.refl _) hw hne hkind hprevious
              (of_decide_eq_false hregion.symm) hreadOnly hused hrun
            obtain ⟨hstep', hw₁', hkind₁'⟩ := absorb_step hs' (.refl _) hw' hne' hkind'
              hprevious'
              (of_decide_eq_false hregion'.symm) hreadOnly' hused' hrun'
            refine (ih h₁ ⟨hle.op ho.1, ho.2⟩ (hstep.stable hs) (hstep'.stable hs') hw₁ hw₁' hkind₁
              hkind₁').mono ?_
            rintro x x' ⟨q', hle', hrest⟩
            exact ⟨q', hle.trans hle', hrest⟩

theorem merge?_agree (hempty : s.border.attributes .empty .empty)
    (f : Footing s.border s.pairing root root' s.left s.right)
    (h₀ : Match s.border s.pairing s.left s.right)
    (h : Editor.Paired s p e e') (ho : p.Inner s.border o o')
    (hs : e.context.Stable root) (hs' : e'.context.Stable root')
    (hw : e.context.Within o root) (hw' : e'.context.Within o' root')
    (hne : o ≠ root) (hne' : o' ≠ root') :
    Agree (Option.Rel (Editor.Follows s p)) (merge? e o) (merge? e' o') := by
  have hm := h.abreast.toMatch
  refine (hm.isKind ho.1 .parallel).bind_ok ?_
  rintro parallel _ hkind hkind' rfl
  have hkind := (isKind_eq_ok hkind).2
  have hkind' := (isKind_eq_ok hkind').2
  cases parallel with
  | false => exact .pure .none
  | true =>
    refine (hm.op_agree ho.1).bind fun row row' hrow => ?_
    obtain ⟨hx, hx'⟩ | ⟨k, k', hx, hx', hk⟩ := rel_cases (hrow.parent.inner ho.2)
    · simp only [hx, hx']
      exact .pure .none
    simp only [hx, hx']
    refine (hm.block_agree hk).bind fun block block' hblock => ?_
    refine .ite ?_ (fun _ => .pure .none) fun _ => ?_
    · rcases rel_cases (rel_head? hblock.ops) with ⟨hy, hy'⟩ | ⟨y, y', hy, hy', hyy⟩
      · rw [hy, hy']
        simp
      · rw [hy, hy', Option.some.injEq, Option.some.injEq, p.op.iff hyy.1 ho.1]
    refine (hasOther_agree hm (f.abreast h₀ h.abreast hs.sound hs'.sound) ho hw).bind ?_
    rintro other _ rfl
    cases other with
    | false => exact .pure .none
    | true =>
      refine (absorbAll_agree f h₀ h ho hs hs' hw hw' hne hne' (of_decide_eq_true hkind.symm)
        (of_decide_eq_true hkind'.symm) (by rw [hblock.ops.length_eq])).bind ?_
      rintro ⟨e₁, moved, stop⟩ ⟨e₁', _, stop'⟩ ⟨q, hle, h₁, rfl, hstop⟩
      cases hstop with
      | atWall =>
        refine .pure ?_
        dsimp only
        split
        · exact .none
        · exact .some ⟨q, hle, h₁⟩
      | atRegion ha =>
        refine (fuse_agree hempty h₁ ⟨hle.op ho.1, ho.2⟩ ha).bind ?_
        rintro e₂ e₂' ⟨q', hle', h₂⟩
        exact .pure (.some ⟨q', hle.trans hle', h₂⟩)

end Parallel

end Offload
