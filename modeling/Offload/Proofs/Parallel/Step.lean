import Offload.Parallel.Optimize
import Offload.Proofs.Parallel.Absorb
import Offload.Proofs.Parallel.Fuse
import Offload.Proofs.Parallel.Swap
import Offload.Proofs.Pattern.Greedy

/-!
# The steps of the parallel patterns

Whatever the parallel patterns do to a program is a sequence of swaps, moves into a
region, and fusions, each at a region nested in the root (`Step`). A swap is an
application of its pattern by itself; merging moves operations into the region until it
meets another one, and then may fuse the two.
-/

namespace Offload

open Context

/-- One change at a region nested in the root. -/
inductive Step (root : OpRef) (ctx ctx' : Context) : Prop
  | swap {o outer : OpRef} (s : ctx.Swap o outer) (barriers : List OpRef)
      (ho : ctx.Within o root) (hne : o ≠ root) (d : s.Done barriers ctx')
  | absorb {o previous : OpRef} (s : ctx.Absorb o previous) (σ : ValueRef → ValueRef)
      (copy : OpRef) (ho : ctx.Within o root) (hne : o ≠ root) (d : s.Done σ copy ctx')
  | fuse {o previous : OpRef} (s : ctx.Fuse o previous) (barrier : OpRef)
      (ho : ctx.Within o root) (hne : o ≠ root) (d : s.Done barrier ctx')

/-- A number of changes, one after the other. -/
def Steps (root : OpRef) : Context → Context → Prop := Relation.ReflTransGen (Step root)

variable {root top o : OpRef} {ctx ctx' : Context}

theorem Step.stable (hstep : Step root ctx ctx') (h : ctx.Stable root) : ctx'.Stable root := by
  cases hstep with
  | swap s barriers ho hne d => exact d.stable h ho hne
  | absorb s σ copy ho hne d => exact d.stable h ho
  | fuse s barrier ho hne d => exact d.stable h ho hne

theorem Step.evolves (hstep : Step root ctx ctx') : ctx.Evolves ctx' := by
  cases hstep with
  | swap s barriers ho hne d => exact d.evolves
  | absorb s σ copy ho hne d => exact d.evolves
  | fuse s barrier ho hne d => exact d.evolves

theorem Steps.stable (hsteps : Steps root ctx ctx') (h : ctx.Stable root) : ctx'.Stable root := by
  induction hsteps with
  | refl => exact h
  | tail _ hstep ih => exact hstep.stable ih

theorem Steps.evolves (hsteps : Steps root ctx ctx') : ctx.Evolves ctx' := by
  induction hsteps with
  | refl => exact .refl ctx
  | tail _ hstep ih => exact ih.trans hstep.evolves

/-! ## Roots that are nested in others -/

/-- What is around the root stays around it. -/
theorem Step.nested (hstep : Step root ctx ctx') (h : ctx.Sound) {a : OpRef}
    (hw : ctx.Within root a) : ctx'.Within root a := by
  have hc := h.coherent
  by_cases ha : root = a
  · exact ha ▸ .refl root
  -- nothing in the root is around it
  have hin {p : OpRef} (hp : ctx.Within p root) (hpa : ctx.Within a p) : False :=
    ha (h.grounded.antisymm hw (hpa.trans hp))
  cases hstep with
  | @swap o outer s barriers ho hne d =>
    have hwithin : ctx.Within outer root := by
      obtain ⟨t, ht, hwt⟩ := (within_iff_above.1 ho).resolve_left hne
      exact Option.some.inj ((s.above_region hc).symm.trans ht) ▸ hwt
    refine d.within h hw ?_
    rintro rfl
    exact hin hwithin (.refl a)
  | @absorb o previous s σ copy ho hne d =>
    have hwithin : ctx.Within previous root :=
      hc.within_of_beside (b := s.place) (by simp [s.place_ops]) (by simp [s.place_ops]) ho hne
    exact d.within h hw fun hp => s.region_not_within h (ho.trans hp)
  | @fuse o previous s barrier ho hne d =>
    refine d.within h hw hne.symm (fun hp => ?_) ?_
    · exact s.region_not_within_last h (ho.trans hp)
    · rintro rfl
      exact hin ho (.refl a)

/-- A step in the root is one in what is around the root. -/
theorem Step.widen (hstep : Step root ctx ctx') (h : ctx.Sound) (hin : ctx.Within root top) :
    Step top ctx ctx' := by
  have htop {o : OpRef} (ho : ctx.Within o root) (hne : o ≠ root) : o ≠ top := by
    rintro rfl
    exact hne (h.grounded.antisymm ho hin)
  cases hstep with
  | swap s barriers ho hne d => exact .swap s barriers (ho.trans hin) (htop ho hne) d
  | absorb s σ copy ho hne d => exact .absorb s σ copy (ho.trans hin) (htop ho hne) d
  | fuse s barrier ho hne d => exact .fuse s barrier (ho.trans hin) (htop ho hne) d

/-- The program that the root is in stays stable. -/
theorem Step.stable_around (hstep : Step root ctx ctx') (h : ctx.Stable top)
    (hin : ctx.Within root top) : ctx'.Stable top ∧ ctx'.Within root top :=
  ⟨(hstep.widen h.sound hin).stable h, hstep.nested h.sound hin⟩

theorem Steps.stable_around (hsteps : Steps root ctx ctx') (h : ctx.Stable top)
    (hin : ctx.Within root top) : ctx'.Stable top ∧ ctx'.Within root top := by
  induction hsteps with
  | refl => exact ⟨h, hin⟩
  | tail _ hstep ih => exact hstep.stable_around ih.1 ih.2

namespace Parallel

variable {e e' : Editor}

theorem usedOnlyInside_eq_true {region : OpRef}
    (hrun : usedOnlyInside ctx o region = .ok true) :
    ∀ v ∈ ctx.results o, ∀ u ∈ ctx.uses.get v, ctx.Within u.user region := by
  intro v hv u hu
  have := Outcome.allM_eq_true.1 (Outcome.allM_eq_true.1 hrun v hv) u hu
  exact within_of_isAncestorWithin this

/-- What stands right before a region, at most reads, and is used in the region alone is
    moved into it. -/
theorem absorb_step {previous : OpRef} (h : e.context.Stable top)
    (hin : e.context.Within root top) (ho : e.context.Within o root) (hne : o ≠ root)
    (hkind : e.context.kindOf o = .parallel)
    (hprevious : e.context.previous o = .ok (some previous))
    (hregion : e.context.kindOf previous ≠ .parallel)
    (hreadOnly : e.context.isReadOnly previous = .ok true)
    (hused : usedOnlyInside e.context previous o = .ok true)
    (hrun : absorb e o previous = .ok e') : Step root e.context e'.context ∧
      e'.context.Within o root ∧ e'.context.kindOf o = .parallel := by
  obtain ⟨b, before, after, hops⟩ := previous_eq_some hprevious
  obtain ⟨team⟩ := h.nonempty_team (ho.trans hin) hkind
  let s : e.context.Absorb o previous :=
    ⟨team, b, before, after, hops, hregion, hreadOnly, usedOnlyInside_eq_true hused⟩
  obtain ⟨σ, copy, d⟩ := absorb_spec h.sound s hrun
  exact ⟨.absorb s σ copy ho hne d, d.within h.sound ho (s.region_not_within h.sound),
    (d.evolves.kindOf team.hasOp).trans hkind⟩

/-- Operations are moved into the region until something stands in the way. -/
theorem absorbAll_spec {n moved moved' : Nat} {stop : Stop} (h : e.context.Stable top)
    (hin : e.context.Within root top) (ho : e.context.Within o root) (hne : o ≠ root)
    (hkind : e.context.kindOf o = .parallel)
    (hrun : absorbAll o n e moved = .ok (e', moved', stop)) :
    Steps root e.context e'.context ∧
      (moved' ≠ moved → Relation.TransGen (Step root) e.context e'.context) ∧
      e'.context.Within o root ∧ e'.context.kindOf o = .parallel ∧
      ∀ previous, stop = .atRegion previous →
        e'.context.kindOf previous = .parallel ∧
          ∃ b before after, e'.context.opsOf b = before ++ previous :: o :: after := by
  induction n generalizing e moved with
  | zero =>
    simp only [absorbAll, Outcome.pure_eq_ok, Prod.mk.injEq] at hrun
    obtain ⟨rfl, rfl, rfl⟩ := hrun
    exact ⟨.refl, by simp, ho, hkind, by simp⟩
  | succ n ih =>
    rw [absorbAll] at hrun
    obtain ⟨found, hfound, hrun⟩ := Outcome.bind_eq_ok.1 hrun
    cases found with
    | none =>
      simp only [Outcome.pure_eq_ok, Prod.mk.injEq] at hrun
      obtain ⟨rfl, rfl, rfl⟩ := hrun
      exact ⟨.refl, by simp, ho, hkind, by simp⟩
    | some previous =>
      simp only [Outcome.bind_eq_ok] at hrun
      obtain ⟨answer, hregion, hrun⟩ := hrun
      obtain ⟨-, rfl⟩ := isKind_eq_ok hregion
      split at hrun
      · rename_i hregion
        simp only [Outcome.pure_eq_ok, Prod.mk.injEq] at hrun
        obtain ⟨rfl, rfl, rfl⟩ := hrun
        refine ⟨.refl, by simp, ho, hkind, fun p hp => ?_⟩
        obtain rfl := Stop.atRegion.inj hp
        obtain ⟨b, before, after, hops⟩ := previous_eq_some hfound
        exact ⟨of_decide_eq_true hregion, b, before, after, hops⟩
      rename_i hregion
      obtain ⟨readOnly, hreadOnly, hrun⟩ := Outcome.bind_eq_ok.1 hrun
      cases readOnly with
      | false =>
        simp only [Bool.not_false, if_true, Outcome.pure_eq_ok, Prod.mk.injEq] at hrun
        obtain ⟨rfl, rfl, rfl⟩ := hrun
        exact ⟨.refl, by simp, ho, hkind, by simp⟩
      | true =>
      obtain ⟨used, hused, hrun⟩ := Outcome.bind_eq_ok.1 hrun
      cases used with
      | false =>
        simp only [Bool.not_false, if_true, Outcome.pure_eq_ok, Prod.mk.injEq] at hrun
        obtain ⟨rfl, rfl, rfl⟩ := hrun
        exact ⟨.refl, by simp, ho, hkind, by simp⟩
      | true =>
        obtain ⟨e₁, habsorb, hrun⟩ := Outcome.bind_eq_ok.1 hrun
        obtain ⟨hstep, hw, hkind₁⟩ := absorb_step h hin ho hne hkind hfound
          (fun hp => hregion (decide_eq_true hp)) hreadOnly hused habsorb
        obtain ⟨h₁, hin₁⟩ := hstep.stable_around h hin
        obtain ⟨hsteps, -, hrest⟩ := ih h₁ hin₁ hw hkind₁ hrun
        exact ⟨hsteps.head hstep, fun _ => .head' hstep hsteps, hrest⟩

theorem merge?_spec (h : e.context.Stable top) (hin : e.context.Within root top)
    (ho : e.context.Within o root) (hne : o ≠ root)
    (hrun : merge? e o = .ok (some e')) :
    Relation.TransGen (Step root) e.context e'.context := by
  rw [merge?] at hrun
  obtain ⟨answer, hkind, hrun⟩ := Outcome.bind_eq_ok.1 hrun
  obtain ⟨-, rfl⟩ := isKind_eq_ok hkind
  split at hrun
  · simp at hrun
  rename_i hkind
  have hkind : e.context.kindOf o = .parallel := by simpa using hkind
  obtain ⟨row, -, hrun⟩ := Outcome.bind_eq_ok.1 hrun
  cases hb : row.parent with
  | none => simp [hb] at hrun
  | some b =>
    simp only [hb, Outcome.bind_eq_ok] at hrun
    obtain ⟨block, -, hrun⟩ := hrun
    split at hrun
    · simp at hrun
    obtain ⟨other, -, hrun⟩ := Outcome.bind_eq_ok.1 hrun
    cases other with
    | false => simp at hrun
    | true =>
      obtain ⟨⟨e₁, moved, stop⟩, habsorb, hrun⟩ := Outcome.bind_eq_ok.1 hrun
      obtain ⟨hsteps, hmoved, hw, hkind₁, hstop⟩ := absorbAll_spec h hin ho hne hkind habsorb
      cases stop with
      | atWall =>
        dsimp only at hrun
        split at hrun
        · simp at hrun
        · rename_i hsome
          simp only [Outcome.pure_eq_ok, Option.some.injEq] at hrun
          exact hrun ▸ hmoved hsome
      | atRegion previous =>
        obtain ⟨hprevious, b, before, after, hops⟩ := hstop previous rfl
        simp only [Outcome.bind_eq_ok, Outcome.pure_eq_ok, Option.some.injEq] at hrun
        obtain ⟨e₂, hfuse, rfl⟩ := hrun
        obtain ⟨h₁, hin₁⟩ := hsteps.stable_around h hin
        have hw' : e₁.context.Within previous root :=
          h₁.sound.coherent.within_of_beside (b := b) (by simp [hops]) (by simp [hops]) hw hne
        obtain ⟨first⟩ := h₁.nonempty_team (hw'.trans hin₁) hprevious
        obtain ⟨second⟩ := h₁.nonempty_team (hw.trans hin₁) hkind₁
        let s : e₁.context.Fuse o previous := ⟨first, second, b, before, after, hops⟩
        obtain ⟨barrier, d⟩ := fuse_spec h₁.sound s hfuse
        exact .tail' hsteps (.fuse s barrier hw hne d)

/-- An application of a pattern in a root within the program is a sequence of steps, and
    not an empty one. -/
theorem steps_of_attempt_within {pattern : Pattern} (hpattern : pattern ∈ patterns)
    (h : e.context.Stable top) (hin : e.context.Within root top) (ho : e.context.Within o root)
    (hne : o ≠ root) (hrun : pattern.attempt e o = .ok (some e')) :
    Relation.TransGen (Step root) e.context e'.context := by
  have htop : o ≠ top := by
    rintro rfl
    exact hne (h.sound.grounded.antisymm ho hin)
  simp only [patterns, List.mem_cons, List.not_mem_nil, or_false] at hpattern
  rcases hpattern with rfl | rfl | rfl
  · exact merge?_spec h hin ho hne hrun
  · obtain ⟨outer, s, barrier, -, d⟩ := leaveLoop?_spec h (ho.trans hin) htop hrun
    exact .single (.swap s [barrier] ho hne d)
  · obtain ⟨outer, s, -, d⟩ := leaveConditional?_spec h (ho.trans hin) htop hrun
    exact .single (.swap s [] ho hne d)

theorem steps_of_attempt {pattern : Pattern} (hpattern : pattern ∈ patterns)
    (h : e.context.Stable root) (ho : e.context.Within o root) (hne : o ≠ root)
    (hrun : pattern.attempt e o = .ok (some e')) :
    Relation.TransGen (Step root) e.context e'.context :=
  steps_of_attempt_within hpattern h (.refl root) ho hne hrun

/-- A run at a root within the program is a sequence of steps. -/
theorem steps_of_reaches_within {greedy : Greedy} (hpatterns : greedy.patterns = patterns)
    (h : ctx.Stable top) (hin : ctx.Within root top) (hreaches : greedy.Reaches root ctx ctx') :
    Steps root ctx ctx' := by
  induction hreaches with
  | refl => exact .refl
  | tail _ happlies ih =>
    obtain ⟨o, happlies⟩ := happlies
    obtain ⟨pattern, hpattern, e, hattempt, rfl⟩ := happlies.attempt
    obtain ⟨h₁, hin₁⟩ := ih.stable_around h hin
    exact ih.trans (steps_of_attempt_within (e := { context := _ }) (hpatterns ▸ hpattern) h₁ hin₁
      (within_of_isAncestorWithin happlies.nested) happlies.ne_root hattempt).to_reflTransGen

theorem steps_of_reaches {greedy : Greedy} (hpatterns : greedy.patterns = patterns)
    (h : ctx.Stable root) (hreaches : greedy.Reaches root ctx ctx') : Steps root ctx ctx' :=
  steps_of_reaches_within hpatterns h (.refl root) hreaches

end Parallel

end Offload
