import Offload.Proofs.Parallel.Descent
import Offload.Proofs.Parallel.Normal

/-!
# The parallel patterns do not fault

An attempt to apply a parallel pattern to something in a program that is `Tight` gives an
answer: either the pattern does not apply, or there is a program after the change
(`exists_attempt`).
-/

namespace Offload

open Context

namespace Context

variable {ctx : Context} {o : OpRef}

theorem Coherent.exists_previous (h : ctx.Coherent) (ho : ctx.HasOp o) :
    ∃ answer, ctx.previous o = .ok answer := by
  obtain ⟨row, hrow⟩ := hasOp_iff.1 ho
  have hparent : ctx.blockOf o = row.parent := readOp_of_op hrow _ _
  rw [previous, hrow, Outcome.ok_bind]
  cases hb : row.parent with
  | none => exact ⟨none, rfl⟩
  | some b =>
    obtain ⟨block, hblock⟩ := hasBlock_iff.1 (h.hasBlock_of_blockOf (hparent.trans hb))
    dsimp only
    rw [hblock, Outcome.ok_bind]
    split <;> exact ⟨_, rfl⟩

end Context

namespace Parallel

variable {root o : OpRef} {ctx : Context} {e e' : Editor}

/-! ## Questions -/

theorem exists_outermostWithin (h : ctx.Coherent) {n : Nat} {o : OpRef} (ho : ctx.HasOp o) :
    ∃ s, outermostWithin ctx n o = .ok s ∧ ctx.HasOp s := by
  induction n generalizing o with
  | zero => exact ⟨o, rfl, ho⟩
  | succ n ih =>
    rw [outermostWithin, h.parentOp_ok ho, Outcome.ok_bind]
    cases habove : ctx.above o with
    | none => exact ⟨o, rfl, ho⟩
    | some p => exact ih (h.hasOp_of_above habove).2

theorem exists_scopeOf (h : ctx.Sound) (ho : ctx.HasOp o) :
    ∃ s, scopeOf ctx o = .ok s ∧ ctx.HasOp s := by
  obtain ⟨function, hfunction⟩ := h.coherent.enclosing_ok (·.kind = .func) ho
  rw [scopeOf, hfunction, Outcome.ok_bind]
  cases function with
  | none => exact exists_outermostWithin h.coherent ho
  | some f =>
    obtain ⟨⟨p, hp, hw⟩, -⟩ := enclosing_eq_some h.grounded hfunction
    exact ⟨f, rfl, h.coherent.hasOp_of_within hw (h.coherent.hasOp_of_above hp).2⟩

theorem exists_hasOther (h : ctx.Sound) (ho : ctx.HasOp o) :
    ∃ answer, hasOther ctx o = .ok answer := by
  obtain ⟨s, hs, hex⟩ := exists_scopeOf h ho
  rw [hasOther, hs, Outcome.ok_bind]
  suffices ∀ visit : OpRef → Unit → Except Fault (Unit × WalkStep),
      (∀ p, ctx.HasOp p → ∀ u, ∃ answer, visit p u = .ok answer) →
        ∃ answer, (do return (← ctx.walk visit s ()).2 : Except Fault Bool) = .ok answer by
    refine this _ fun p hp u => ?_
    obtain ⟨inside, hinside⟩ := h.coherent.isAncestorWithin_ok o (n := ctx.ops.size + 1) hp
    rw [isKind_ok hp, Outcome.ok_bind]
    split
    · exact ⟨_, rfl⟩
    · rw [isAncestor, hinside, Outcome.ok_bind]
      split <;> exact ⟨_, rfl⟩
  intro visit hvisit
  obtain ⟨answer, hanswer⟩ := h.grounded.walk_ok h.coherent hex hvisit ()
  exact ⟨answer.2, by rw [hanswer]; rfl⟩

/-- Another region in the scope is found. -/
theorem hasOther_ok (h : ctx.Sound) (ho : ctx.HasOp o) {s other : OpRef} (hs : ctx.ScopeOf o s)
    (hw : ctx.Within other s) (hkind : ctx.kindOf other = .parallel)
    (houtside : ¬ctx.Within other o) : hasOther ctx o = .ok true := by
  obtain ⟨answer, hanswer⟩ := exists_hasOther h ho
  cases answer with
  | false => exact absurd (hasOther_eq_false h ho hanswer hs hw hkind) houtside
  | true => exact hanswer

theorem exists_usedOnlyInside (h : ctx.Coherent) (region : OpRef) :
    ∃ answer, usedOnlyInside ctx o region = .ok answer :=
  Outcome.allM_ok fun _ _ => Outcome.allM_ok fun _ hu =>
    h.isAncestorWithin_ok region (h.hasOp_of_use hu)

theorem exists_soleParent? (h : ctx.Coherent) (ho : ctx.HasOp o) :
    ∃ answer, soleParent? ctx o = .ok answer := by
  obtain ⟨row, hrow⟩ := hasOp_iff.1 ho
  have hparent : ctx.blockOf o = row.parent := readOp_of_op hrow _ _
  rw [soleParent?, isKind_ok ho, Outcome.ok_bind]
  split
  · exact ⟨none, rfl⟩
  rw [hrow, Outcome.ok_bind]
  cases hb : row.parent with
  | none => exact ⟨none, rfl⟩
  | some b =>
    obtain ⟨block, hblock⟩ := hasBlock_iff.1 (h.hasBlock_of_blockOf (hparent.trans hb))
    dsimp only
    rw [hblock, Outcome.ok_bind, h.parentOp_ok ho]
    split
    · exact ⟨none, rfl⟩
    · cases ctx.above o <;> exact ⟨_, rfl⟩

/-! ## Patterns -/

section

variable (h : e.context.Tight root) (ho : e.context.Within o root) (hne : o ≠ root)

include h ho

theorem exists_absorbAll (hkind : e.context.kindOf o = .parallel) (n moved : Nat) :
    ∃ e' moved' stop, absorbAll o n e moved = .ok (e', moved', stop) ∧
      (e.Recorded → e'.Recorded) := by
  induction n generalizing e moved with
  | zero => exact ⟨e, moved, .atWall, rfl, id⟩
  | succ n ih =>
    have hs := h.sound
    have hc := hs.coherent
    obtain ⟨found, hfound⟩ := hc.exists_previous (hc.hasOp_of_within' ho h.hasRoot)
    rw [absorbAll, hfound, Outcome.ok_bind]
    cases found with
    | none => exact ⟨e, moved, .atWall, rfl, id⟩
    | some previous =>
      obtain ⟨b, before, after, hops⟩ := previous_eq_some hfound
      have hprevious : e.context.HasOp previous := hc.hasOp_of_mem (b := b) (by simp [hops])
      obtain ⟨readOnly, hreadOnly⟩ := hs.isReadOnly_ok hprevious
      obtain ⟨used, hused⟩ := exists_usedOnlyInside (o := previous) hc o
      dsimp only
      rw [isKind_ok hprevious, Outcome.ok_bind]
      split
      · exact ⟨e, moved, .atRegion previous, rfl, id⟩
      rename_i hregion
      rw [hreadOnly, Outcome.ok_bind]
      cases readOnly with
      | false => exact ⟨e, moved, .atWall, rfl, id⟩
      | true =>
      rw [hused]
      cases used with
      | false => exact ⟨e, moved, .atWall, rfl, id⟩
      | true =>
        obtain ⟨team⟩ := h.nonempty_team ho hkind
        let s : e.context.Absorb o previous :=
          ⟨team, b, before, after, hops, fun hp => hregion (decide_eq_true hp), hreadOnly,
            usedOnlyInside_eq_true hused⟩
        have hroot := s.within_root h.toStable ho
        obtain ⟨e₁, σ, copy, habsorb, hrec, d⟩ := exists_absorb hs s
          (Absorb.Done.sealed_previous h s ho) fun z hz => h.visible hz hroot
        obtain ⟨e', moved', stop, hrun, hrec'⟩ := ih (d.tight h ho)
          (d.within hs ho (s.region_not_within hs)) ((d.evolves.kindOf team.hasOp).trans hkind)
          (moved + 1)
        refine ⟨e', moved', stop, ?_, hrec' ∘ hrec⟩
        simp only [Outcome.ok_bind, Bool.not_true, Bool.false_eq_true, if_false, habsorb, hrun]

include hne

theorem exists_merge? : ∃ answer, merge? e o = .ok answer ∧
    ∀ e', answer = some e' → e.Recorded → e'.Recorded := by
  have hs := h.sound
  have hc := hs.coherent
  have hex := hc.hasOp_of_within' ho h.hasRoot
  obtain ⟨row, hrow⟩ := hasOp_iff.1 hex
  have hparent : e.context.blockOf o = row.parent := readOp_of_op hrow _ _
  rw [merge?, isKind_ok hex, Outcome.ok_bind]
  split
  · exact ⟨none, rfl, by simp⟩
  rename_i hkind
  have hkind : e.context.kindOf o = .parallel := by simpa using hkind
  rw [hrow, Outcome.ok_bind]
  cases hb : row.parent with
  | none => exact ⟨none, rfl, by simp⟩
  | some b =>
    obtain ⟨block, hblock⟩ := hasBlock_iff.1 (hc.hasBlock_of_blockOf (hparent.trans hb))
    obtain ⟨other, hother⟩ := exists_hasOther hs hex
    obtain ⟨e₁, moved, stop, habsorb, hrec₁⟩ :=
      exists_absorbAll h ho hkind (block.ops.length + 1) 0
    obtain ⟨hsteps, -, hw, hkind₁, hstop⟩ := absorbAll_spec h.toStable (.refl root) ho hne hkind habsorb
    dsimp only
    rw [hblock, Outcome.ok_bind, hother, Outcome.ok_bind, habsorb, Outcome.ok_bind]
    split
    · exact ⟨none, rfl, by simp⟩
    cases other with
    | false => exact ⟨none, rfl, by simp⟩
    | true =>
    cases stop with
    | atWall =>
      simp only [Bool.not_true, Bool.false_eq_true, if_false]
      split
      · exact ⟨none, rfl, by simp⟩
      · exact ⟨some e₁, rfl, fun e' he => Option.some.inj he ▸ hrec₁⟩
    | atRegion previous =>
      have h₁ := hsteps.tight h
      obtain ⟨hprevious, b, before, after, hops⟩ := hstop previous rfl
      obtain ⟨second⟩ := h₁.nonempty_team hw hkind₁
      have hw' : e₁.context.Within previous root :=
        h₁.sound.coherent.within_of_beside (b := b) (by simp [hops]) (by simp [hops]) hw hne
      obtain ⟨first⟩ := h₁.nonempty_team hw' hprevious
      obtain ⟨e₂, barrier, hfuse, hrec₂, -⟩ := exists_fuse h₁.sound
        (⟨first, second, b, before, after, hops⟩ : e₁.context.Fuse o previous)
        (h₁.closed first.body previous first.last (first.holder h₁.sound.coherent) hw' hprevious
          (by rw [first.ops, List.getLast?_concat]))
      refine ⟨some e₂, ?_, fun e' he => Option.some.inj he ▸ hrec₂ ∘ hrec₁⟩
      simp only [Bool.not_true, Bool.false_eq_true, if_false, hfuse]
      rfl

/-- A region that is alone with a terminator in a loop or conditional can be swapped with
    it. -/
theorem exists_swap_sole {outer final : OpRef} {inner : BlockRef}
    (hsole : soleParent? e.context o = .ok (some outer))
    (hkind : e.context.kindOf outer = .loop ∨ e.context.kindOf outer = .conditional)
    (hinner : e.context.blockAt outer 0 = .ok inner) (hops : e.context.opsOf inner = [o, final])
    (withBarrier : Bool) :
    ∃ e', swap e o outer inner withBarrier = .ok e' ∧ (e.Recorded → e'.Recorded) := by
  have hc := h.sound.coherent
  obtain ⟨hparallel, -, habove, hresults⟩ := soleParent?_spec hsole
  obtain ⟨team⟩ := h.nonempty_team ho hparallel
  have hfirst := blockAt_eq_ok hinner
  have hholder : e.context.holder inner = some outer := by
    obtain ⟨r, hr, hb⟩ := hfirst
    exact hc.holder_of_mem (List.mem_of_getElem? hr) (List.mem_of_head? hb)
  -- the outer operation is not the root, so it is in a block
  have houter : outer ≠ root := by
    rintro rfl
    exact hkind.elim h.root_ne_loop h.root_ne_conditional
  obtain ⟨t, ht, -⟩ := (within_iff_above.1 (within_sole ho hne habove)).resolve_left houter
  obtain ⟨place, hplace, -⟩ := Option.bind_eq_some_iff.1 ht
  obtain ⟨before, after, hsplit⟩ := List.append_of_mem ((hc.ops.owner_iff outer place).1 hplace)
  obtain ⟨e', -, hrun, hrec, -⟩ := exists_swap h.sound
    (⟨team, place, before, after, hsplit, inner, final, hops, hholder, hfirst, hkind, hresults⟩ :
      e.context.Swap o outer) withBarrier
  exact ⟨e', hrun, hrec⟩

theorem exists_leaveLoop? : ∃ answer, leaveLoop? e o = .ok answer ∧
    ∀ e', answer = some e' → e.Recorded → e'.Recorded := by
  have hc := h.sound.coherent
  obtain ⟨sole, hsole⟩ := exists_soleParent? hc (hc.hasOp_of_within' ho h.hasRoot)
  rw [leaveLoop?, hsole, Outcome.ok_bind]
  cases sole with
  | none => exact ⟨none, rfl, by simp⟩
  | some outer =>
    obtain ⟨hkind, -, habove, -⟩ := soleParent?_spec hsole
    obtain ⟨team⟩ := h.nonempty_team ho hkind
    dsimp only
    rw [isKind_ok (hc.hasOp_of_above habove).2, Outcome.ok_bind, isHollow_ok hc team,
      Outcome.ok_bind]
    split
    · exact ⟨none, rfl, by simp⟩
    rename_i hloop
    have hloop : e.context.kindOf outer = .loop := by simpa using hloop
    obtain ⟨inner, final, hinner, hops⟩ := loop_inner h.toStable ho hne hsole hloop
    obtain ⟨e', hswap, hrec⟩ := exists_swap_sole h ho hne hsole (.inl hloop) hinner hops true
    refine ⟨some e', ?_, fun e'' he => Option.some.inj he ▸ hrec⟩
    simp only [Bool.false_eq_true, if_false, hinner, hswap, Outcome.ok_bind]
    rfl

theorem exists_leaveConditional? : ∃ answer, leaveConditional? e o = .ok answer ∧
    ∀ e', answer = some e' → e.Recorded → e'.Recorded := by
  have hc := h.sound.coherent
  have hex := hc.hasOp_of_within' ho h.hasRoot
  obtain ⟨row, hrow⟩ := hasOp_iff.1 hex
  obtain ⟨sole, hsole⟩ := exists_soleParent? hc hex
  rw [leaveConditional?, hsole, Outcome.ok_bind]
  cases sole with
  | none => exact ⟨none, rfl, by simp⟩
  | some outer =>
    obtain ⟨hkind, -, habove, -⟩ := soleParent?_spec hsole
    obtain ⟨team⟩ := h.nonempty_team ho hkind
    dsimp only
    rw [isKind_ok (hc.hasOp_of_above habove).2, Outcome.ok_bind, isHollow_ok hc team, hrow]
    split
    · exact ⟨none, rfl, by simp⟩
    rename_i hconditional
    have hconditional : e.context.kindOf outer = .conditional := by simpa using hconditional
    obtain ⟨inner, hinner, hfinal⟩ := branch_inner h.toStable ho hne hsole hconditional
    rw [hinner, Outcome.ok_bind, Outcome.ok_bind]
    split
    · exact ⟨none, rfl, by simp⟩
    rename_i hbranch
    obtain ⟨final, hops⟩ := hfinal ((readOp_of_op hrow _ _).trans (not_not.1 hbranch))
    obtain ⟨e', hswap, hrec⟩ :=
      exists_swap_sole h ho hne hsole (.inr hconditional) hinner hops false
    refine ⟨some e', ?_, fun e'' he => Option.some.inj he ▸ hrec⟩
    simp only [Bool.false_eq_true, if_false, hswap, Outcome.ok_bind]
    rfl

/-- An attempt gives an answer. -/
theorem exists_attempt {pattern : Pattern} (hpattern : pattern ∈ patterns) :
    ∃ answer, pattern.attempt e o = .ok answer ∧
      ∀ e', answer = some e' → e.Recorded → e'.Recorded := by
  simp only [patterns, List.mem_cons, List.not_mem_nil, or_false] at hpattern
  rcases hpattern with rfl | rfl | rfl
  · exact exists_merge? h ho hne
  · exact exists_leaveLoop? h ho hne
  · exact exists_leaveConditional? h ho hne

end

end Parallel

end Offload
