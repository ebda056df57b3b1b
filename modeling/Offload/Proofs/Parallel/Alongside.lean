import Offload.Proofs.Parallel.Abreast

/-!
# A function among others, and alone

The same function stands in two programs, in one of them among others (`Alongside`). The
function is paired with itself. So are the others, within the first program: what a change
among them does not touch is then said by comparing it with itself (`Alongside.applyOther`).
-/

namespace Offload

open Context Parallel

/-- The other operations in the same place, compared with themselves. -/
def Border.beside (b : Border) (top : OpRef → Prop) : Border :=
  ⟨top, b.home, b.home, b.free, b.free, Eq, Eq⟩

/-- What is paired in a list of operations makes another list, in the same order; the rest
    is something else. -/
inductive Sifted (p q : Pairing) : List OpRef → List OpRef → Prop
  | nil : Sifted p q [] []
  | cons {o o' : OpRef} {l l' : List OpRef} (ho : p.op o o') (hl : Sifted p q l l') :
    Sifted p q (o :: l) (o' :: l')
  | skip {o : OpRef} {l l' : List OpRef} (ho : q.op.Left o) (hl : Sifted p q l l') :
    Sifted p q (o :: l) l'

namespace Sifted

variable {p q p₁ q₁ : Pairing} {l l' m m' : List OpRef}

theorem mono (h : Sifted p q l l') (hp : p.Le p₁) (hq : q.Le q₁) : Sifted p₁ q₁ l l' := by
  induction h with
  | nil => exact .nil
  | cons ho _ ih => exact .cons (hp.op ho) ih
  | skip ho _ ih => exact .skip (ho.imp fun _ => hq.op) ih

theorem append (h : Sifted p q l l') (hm : Sifted p q m m') :
    Sifted p q (l ++ m) (l' ++ m') := by
  induction h with
  | nil => exact hm
  | cons ho _ ih => exact .cons ho ih
  | skip ho _ ih => exact .skip ho ih

theorem of_forall₂ (h : List.Forall₂ p.op l l') : Sifted p q l l' := by
  induction h with
  | nil => exact .nil
  | cons ho _ ih => exact .cons ho ih

theorem of_forall (h : ∀ o ∈ l, q.op.Left o) : Sifted p q l [] := by
  induction l with
  | nil => exact .nil
  | cons o l ih =>
    exact .skip (h o List.mem_cons_self) (ih fun o ho => h o (List.mem_cons_of_mem _ ho))

theorem mem_iff (h : Sifted p q l l') (hapart : ∀ o, p.op.Left o → ¬q.op.Left o) {o o' : OpRef}
    (ho : p.op o o') : o ∈ l ↔ o' ∈ l' := by
  induction h with
  | nil => simp
  | cons hq _ ih => rw [List.mem_cons, List.mem_cons, p.op.iff ho hq, ih]
  | skip hq _ ih =>
    rw [List.mem_cons, ih, or_iff_right]
    rintro rfl
    exact hapart o ⟨o', ho⟩ hq

/-- Paired operations are removed. -/
theorem remove (h : Sifted p q l l') (hapart : ∀ o, p.op.Left o → ¬q.op.Left o) {o o' : OpRef}
    (ho : p.op o o') : Sifted p q (l.filter (· ≠ o)) (l'.filter (· ≠ o')) := by
  induction h with
  | nil => exact .nil
  | @cons x x' _ _ hx _ ih =>
    by_cases heq : x = o
    · rw [List.filter_cons_of_neg (by simp [heq]),
        List.filter_cons_of_neg (by simp [(p.op.iff hx ho).1 heq])]
      exact ih
    · have heq' : x' ≠ o' := fun e => heq ((p.op.iff hx ho).2 e)
      rw [List.filter_cons_of_pos (by simp [heq]), List.filter_cons_of_pos (by simp [heq'])]
      exact .cons hx ih
  | @skip x _ _ hx _ ih =>
    have hne : x ≠ o := fun e => hapart o ⟨o', ho⟩ (e ▸ hx)
    rw [List.filter_cons_of_pos (by simp [hne])]
    exact .skip hx ih

/-- One of the others is removed. -/
theorem removeOther (h : Sifted p q l l') (hapart : ∀ o, p.op.Left o → ¬q.op.Left o) {o : OpRef}
    (ho : q.op.Left o) : Sifted p q (l.filter (· ≠ o)) l' := by
  induction h with
  | nil => exact .nil
  | @cons x x' _ _ hx _ ih =>
    have hne : x ≠ o := fun e => hapart x ⟨x', hx⟩ (e ▸ ho)
    rw [List.filter_cons_of_pos (by simp [hne])]
    exact .cons hx ih
  | @skip x _ _ hx _ ih =>
    rw [List.filter_cons]
    split
    · exact .skip hx ih
    · exact ih

theorem flatMapM (h : Sifted p q l l') {f f' : OpRef → Except Fault (List OpRef)}
    (hf : ∀ o o', p.op o o' → Agree (List.Forall₂ p.op) (f o) (f' o'))
    (hskip : ∀ o, q.op.Left o → ∀ os, f o = .ok os → ∀ x ∈ os, q.op.Left x) :
    Agree (Sifted p q) (l.flatMapM f) (l'.flatMapM f') := by
  induction h with
  | nil =>
    rw [List.flatMapM_nil, List.flatMapM_nil]
    exact .pure .nil
  | cons ho _ ih =>
    rw [List.flatMapM_cons, List.flatMapM_cons]
    exact (hf _ _ ho).bind fun os os' hos => ih.bind fun _ _ hrest =>
      .pure ((of_forall₂ hos).append hrest)
  | skip ho _ ih =>
    rw [List.flatMapM_cons]
    intro xs xs' hrun hrun'
    obtain ⟨os, hos, hrun⟩ := Outcome.bind_eq_ok.1 hrun
    obtain ⟨rest, hrest, hrun⟩ := Outcome.bind_eq_ok.1 hrun
    obtain rfl := Outcome.pure_eq_ok.1 hrun
    exact (of_forall (hskip _ ho os hos)).append (ih rest xs' hrest hrun')

end Sifted

/-- Some operations in a root, among others there, and in a root of another context, alone. -/
structure Alongside (b : Border) (others : OpRef → Prop) (root root' : OpRef) (p q : Pairing)
    (ctx ctx' : Context) : Prop where
  mine : Match b p ctx ctx'
  footing : Footing b p root root' ctx ctx'
  rest : Match (b.beside others) q ctx ctx
  restFooting : Footing (b.beside others) q root root ctx ctx
  same : ∀ {o o'}, q.op o o' → o = o'
  apart : p.leftPart.Apart q.leftPart
  apart' : p.leftPart.Apart q.rightPart
  tops : Sifted p q (ctx.childrenOf root) (ctx'.childrenOf root')
  stable : ctx.Stable root
  stable' : ctx'.Stable root'

namespace Parallel

variable {b : Border} {p : Pairing} {ctx ctx' : Context} {root root' o o' : OpRef}

/-- The patterns, applied at paired operations, decide alike and leave the same. -/
theorem attempt_agree (hempty : b.attributes .empty .empty) (h : Match b p ctx ctx')
    (f : Footing b p root root' ctx ctx') (hs : ctx.Stable root) (hs' : ctx'.Stable root')
    (ho : p.Inner b o o') (hw : ctx.Within o root) (hw' : ctx'.Within o' root')
    {pattern : Pattern} (hpattern : pattern ∈ patterns) :
    Agree (Option.Rel (Editor.Follows ⟨b, p, ctx, ctx'⟩ p))
      (pattern.attempt { context := ctx } o) (pattern.attempt { context := ctx' } o') := by
  have hne : o ≠ root := fun e => f.outside ⟨o', e ▸ ho.1⟩
  have hne' : o' ≠ root' := fun e => f.outside' ⟨o, e ▸ ho.1⟩
  have hpaired : Editor.Paired ⟨b, p, ctx, ctx'⟩ p { context := ctx } { context := ctx' } :=
    ⟨h.abreast, .nil⟩
  simp only [patterns, List.mem_cons, List.not_mem_nil, or_false] at hpattern
  rcases hpattern with rfl | rfl | rfl
  · exact merge?_agree hempty f h hpaired ho hs hs' hw hw' hne hne'
  · exact leaveLoop?_agree hempty hpaired ho
  · exact leaveConditional?_agree hempty hpaired ho

theorem firstApplied_agree (hempty : b.attributes .empty .empty) (h : Match b p ctx ctx')
    (f : Footing b p root root' ctx ctx') (hs : ctx.Stable root) (hs' : ctx'.Stable root')
    (ho : p.Inner b o o') (hw : ctx.Within o root) (hw' : ctx'.Within o' root') (kind : OpKind) :
    Agree (Option.Rel (Editor.Follows ⟨b, p, ctx, ctx'⟩ p))
      (Greedy.firstApplied ctx o kind patterns) (Greedy.firstApplied ctx' o' kind patterns) := by
  suffices ∀ l : List Pattern, (∀ pattern ∈ l, pattern ∈ patterns) →
      Agree (Option.Rel (Editor.Follows ⟨b, p, ctx, ctx'⟩ p))
        (Greedy.firstApplied ctx o kind l) (Greedy.firstApplied ctx' o' kind l) from
    this patterns fun _ hm => hm
  intro l hl
  induction l with
  | nil => exact .pure .none
  | cons pattern l ih =>
    have hrest := ih fun q hq => hl q (List.mem_cons_of_mem _ hq)
    rw [Greedy.firstApplied, Greedy.firstApplied]
    refine .ite Iff.rfl (fun _ => ?_) fun _ => hrest
    refine (attempt_agree hempty h f hs hs' ho hw hw' (hl pattern List.mem_cons_self)).bind
      fun e e' he => ?_
    cases he with
    | none => exact hrest
    | some he => exact .pure (.some he)

/-- No pattern looks at functions. -/
theorem firstApplied_func : Greedy.firstApplied ctx o .func patterns = .ok none := by
  have hkind : ¬(some OpKind.parallel).all (· = OpKind.func) := by decide
  simp only [patterns, merge, leaveLoop, leaveConditional, Greedy.firstApplied, if_neg hkind]
  rfl

end Parallel

namespace Alongside

variable {b : Border} {others : OpRef → Prop} {root root' o o' : OpRef} {p q : Pairing}
  {ctx ctx' : Context} {e e' : Editor}

/-- A pattern is applied to the function, in both programs. -/
theorem apply (hempty : b.attributes .empty .empty)
    (h : Alongside b others root root' p q ctx ctx') (ho : p.Inner b o o')
    (hw : ctx.Within o root) (hw' : ctx'.Within o' root') (kind : OpKind) :
    Agree (Option.Rel fun e e' => ∃ p', p.Le p' ∧
        Alongside b others root root' p' q e.context e'.context ∧
        List.Forall₂ p'.op e.touched e'.touched)
      (Greedy.firstApplied ctx o kind patterns) (Greedy.firstApplied ctx' o' kind patterns) := by
  intro x x' hrun hrun'
  have hfollows := firstApplied_agree hempty h.mine h.footing h.stable h.stable' ho hw hw' kind x x'
    hrun hrun'
  cases hfollows with
  | none => exact .none
  | @some e e' hfollows =>
    obtain ⟨p', hle, habreast, htouched⟩ := hfollows
    have hne : o ≠ root := fun he => h.footing.outside ⟨o', he ▸ ho.1⟩
    have hne' : o' ≠ root' := fun he => h.footing.outside' ⟨o, he ▸ ho.1⟩
    obtain ⟨pattern, hpattern, hattempt⟩ := Greedy.firstApplied_eq_some hrun
    obtain ⟨pattern', hpattern', hattempt'⟩ := Greedy.firstApplied_eq_some hrun'
    have hstable := Steps.stable (steps_of_attempt (e := { context := ctx }) hpattern h.stable hw
      hne hattempt).to_reflTransGen h.stable
    have hstable' := Steps.stable (steps_of_attempt (e := { context := ctx' }) hpattern' h.stable'
      hw' hne' hattempt').to_reflTransGen h.stable'
    obtain ⟨⟨hop, hregion, hblock⟩, hop', hregion', hblock'⟩ := h.footing.spared h.mine habreast
    obtain ⟨haround, hchildren⟩ := h.footing.left.leaves habreast.leaves hstable.sound hop hregion
      hblock
    obtain ⟨haround', hchildren'⟩ := h.footing.right.leaves habreast.leaves' hstable'.sound hop'
      hregion' hblock'
    -- what is new on the left is none of the others
    have hleft : q.leftPart.Apart (p'.leftExtent b) :=
      habreast.apart_left h.rest.bounded.1 h.apart fun v hv hfree => (h.rest.free hfree).2 hv
    have hright : q.rightPart.Apart (p'.leftExtent b) :=
      habreast.apart_left h.rest.bounded.2 h.apart' fun v hv hfree => (h.rest.free' hfree).2 hv
    have hunused {v : ValueRef} (hv : e.context.values.size ≤ v.index) := habreast.unused hv
    refine .some ⟨p', hle, ?_, htouched⟩
    exact
      { mine := habreast.toMatch
        footing := ⟨haround, haround', hop, hop'⟩
        rest := h.rest.leaves habreast.leaves habreast.leaves hleft hright hunused hunused
        restFooting := ⟨haround, haround, h.restFooting.outside, h.restFooting.outside'⟩
        same := h.same
        apart := hleft.of_leftExtent.symm
        apart' := hright.of_leftExtent.symm
        tops := by
          rw [hchildren, hchildren']
          exact h.tops.mono hle (.refl q)
        stable := hstable
        stable' := hstable' }

/-- A pattern is applied to one of the others. -/
theorem applyOther (h : Alongside b others root root' p q ctx ctx')
    (ho : q.Inner (b.beside others) o o) (hw : ctx.Within o root) {kind : OpKind}
    (hrun : Greedy.firstApplied ctx o kind patterns = .ok (some e)) :
    ∃ q', q.Le q' ∧ Alongside b others root root' p q' e.context ctx' ∧
      ∀ t ∈ e.touched, q'.op.Left t := by
  have hfollows := firstApplied_agree rfl h.rest h.restFooting h.stable h.stable ho hw hw kind _ _
    hrun hrun
  obtain ⟨q', hle, habreast, htouched⟩ : Editor.Follows _ _ e e := by
    cases hfollows with
    | some hfollows => exact hfollows
  have hne : o ≠ root := fun he => h.restFooting.outside ⟨o, he ▸ ho.1⟩
  obtain ⟨pattern, hpattern, hattempt⟩ := Greedy.firstApplied_eq_some hrun
  have hstable := Steps.stable (steps_of_attempt (e := { context := ctx }) hpattern h.stable hw
    hne hattempt).to_reflTransGen h.stable
  obtain ⟨⟨hop, hregion, hblock⟩, hop', -, -⟩ := h.restFooting.spared h.rest habreast
  obtain ⟨haround, hchildren⟩ := h.restFooting.left.leaves habreast.leaves hstable.sound hop hregion
    hblock
  have hmine : p.leftPart.Apart (q'.leftExtent (b.beside others)) :=
    habreast.apart_left h.mine.bounded.1 h.apart.symm fun v hv hfree => (h.mine.free hfree).2 hv
  refine ⟨q', hle, ?_, fun t ht => ?_⟩
  · exact
      { mine := h.mine.leaves habreast.leaves (.refl ctx') hmine (Extent.apart_none _)
          habreast.unused h.mine.unused'
        footing := ⟨haround, h.footing.right, h.footing.outside, h.footing.outside'⟩
        rest := habreast.toMatch
        restFooting := ⟨haround, haround, hop, hop'⟩
        same := fun {o o'} ho => by
          rcases habreast.newOp ho with ho | ⟨-, -, hsize⟩
          · exact h.same ho
          · exact OpRef.index_inj.1 (Nat.add_right_cancel hsize).symm
        apart := hmine.of_leftExtent
        apart' := habreast.apart_right h.mine.bounded.1 h.apart'.symm
        tops := by
          rw [hchildren]
          exact h.tops.mono (.refl p) hle
        stable := hstable
        stable' := h.stable' }
  · obtain ⟨t', -, hp⟩ := Outcome.exists_of_mem_left htouched ht
    exact ⟨t', hp⟩

end Alongside

end Offload
