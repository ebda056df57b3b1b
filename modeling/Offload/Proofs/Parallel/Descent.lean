import Mathlib.Data.Prod.Lex
import Mathlib.Data.Set.Card
import Offload.Proofs.Parallel.Step
import Offload.Proofs.Parallel.Tight.Absorb
import Offload.Proofs.Parallel.Tight.Fuse
import Offload.Proofs.Parallel.Tight.Swap

/-!
# What every change to a program uses up

Operations come and go as regions are merged and moved, so the number of them says nothing. But a
fusion leaves one region fewer (`parallels`), a swap leaves one pair fewer of a region and
a loop or conditional around it (`enclosures`), and a move into a region leaves one pair fewer of
a region and an operation outside it (`exclusions`). In this order none of them
makes more of what comes before: what is new after a move is a copy of what
is erased (`Absorb.Done.exists_source`). So `Context.weight` decreases with every step
(`Step.weight_lt`).
-/

namespace Offload

namespace Context

variable {ctx ctx' : Context} {root : OpRef}

/-- The parallel regions of a program. -/
def parallels (ctx : Context) (root : OpRef) : Set OpRef :=
  {p | ctx.Within p root ∧ ctx.kindOf p = .parallel}

/-- A region, and a loop or conditional around it. -/
def enclosures (ctx : Context) (root : OpRef) : Set (OpRef × OpRef) :=
  {q | q.1 ∈ ctx.parallels root ∧ ctx.Within q.2 root ∧
    (ctx.kindOf q.2 = .loop ∨ ctx.kindOf q.2 = .conditional) ∧ ctx.Within q.1 q.2}

/-- A region, and an operation that is not in it. -/
def exclusions (ctx : Context) (root : OpRef) : Set (OpRef × OpRef) :=
  {q | q.1 ∈ ctx.parallels root ∧ ctx.Within q.2 root ∧ ¬ctx.Within q.2 q.1}

/-- What there is left to do in a program. -/
noncomputable def weight (ctx : Context) (root : OpRef) : ℕ ×ₗ ℕ ×ₗ ℕ :=
  toLex ((ctx.parallels root).ncard,
    toLex ((ctx.enclosures root).ncard, (ctx.exclusions root).ncard))

theorem weight_lt (hparallels : (ctx'.parallels root).ncard ≤ (ctx.parallels root).ncard)
    (hrest : (ctx'.parallels root).ncard < (ctx.parallels root).ncard ∨
      (ctx'.enclosures root).ncard ≤ (ctx.enclosures root).ncard ∧
        ((ctx'.enclosures root).ncard < (ctx.enclosures root).ncard ∨
          (ctx'.exclusions root).ncard < (ctx.exclusions root).ncard)) :
    ctx'.weight root < ctx.weight root := by
  rw [weight, weight, Prod.Lex.toLex_lt_toLex, Prod.Lex.toLex_lt_toLex]
  dsimp only
  omega

/-! ## There is only so much -/

theorem finite_hasOp (ctx : Context) : {o | ctx.HasOp o}.Finite :=
  ((Set.finite_lt_nat ctx.ops.size).image OpRef.mk).subset fun o ho => ⟨o.index, ho, rfl⟩

namespace Stable

variable (h : ctx.Stable root)

include h

theorem finite_within : {o | ctx.Within o root}.Finite :=
  ctx.finite_hasOp.subset fun _ ho => h.sound.coherent.hasOp_of_within' ho h.hasRoot

theorem finite_parallels : (ctx.parallels root).Finite := h.finite_within.subset fun _ hp => hp.1

theorem finite_enclosures : (ctx.enclosures root).Finite :=
  (h.finite_parallels.prod h.finite_within).subset fun _ hq => ⟨hq.1, hq.2.1⟩

theorem finite_exclusions : (ctx.exclusions root).Finite :=
  (h.finite_parallels.prod h.finite_within).subset fun _ hq => ⟨hq.1, hq.2.1⟩

end Stable

/-! ## What each change uses up -/

namespace Swap.Done

variable {o outer : OpRef} {s : ctx.Swap o outer} {barriers : List OpRef}
  (d : s.Done barriers ctx') (h : ctx.Tight root) (ho : ctx.Within o root) (hne : o ≠ root)

include d h ho hne

/-- What is in the program and is not a barrier was in it before. -/
theorem within_root_old {p : OpRef} (hp : ctx'.Within p root) (hkind : ctx'.kindOf p ≠ .barrier) :
    ctx.HasOp p ∧ ctx.Within p root ∧ ctx'.kindOf p = ctx.kindOf p := by
  have hp := (d.within_before h.sound ho hne hp).resolve_left fun hm =>
    hkind (d.barriers p hm).2.kind
  have hex := h.sound.coherent.hasOp_of_within' hp h.hasRoot
  exact ⟨hex, hp, d.evolves.kindOf hex⟩

theorem parallels_subset : ctx'.parallels root ⊆ ctx.parallels root := by
  rintro p ⟨hp, hkind⟩
  obtain ⟨-, hp, e⟩ := d.within_root_old h ho hne hp (by rw [hkind]; decide)
  exact ⟨hp, e ▸ hkind⟩

/-- The region is no longer in the operation that was around it, and nothing else has moved into
    a loop or conditional. -/
theorem ncard_enclosures_lt : (ctx'.enclosures root).ncard < (ctx.enclosures root).ncard := by
  have hs := h.sound
  have hc := hs.coherent
  refine Set.ncard_lt_ncard (Set.ssubset_iff_exists.2 ⟨?_, (o, outer), ?_, fun hq => ?_⟩)
    h.finite_enclosures
  · rintro ⟨p, x⟩ ⟨hp, hx, hkind, hw⟩
    obtain ⟨-, hx, e⟩ :=
      d.within_root_old h ho hne hx (by rcases hkind with hk | hk <;> rw [hk] <;> decide)
    have hp := d.parallels_subset h ho hne hp
    rw [e] at hkind
    refine ⟨hp, hx, hkind, d.within_old hs (hc.hasOp_of_within' hp.1 h.hasRoot) ?_ hw⟩
    rintro rfl
    rw [s.team.kind] at hkind
    exact absurd hkind (by decide)
  · exact ⟨⟨ho, s.team.kind⟩, h.within_root ho (within_of_above (s.above_region hc)), s.kind,
      within_of_above (s.above_region hc)⟩
  · exact d.sound.grounded.not_within_above (d.above_outer hs) hq.2.2.2

theorem weight_lt : ctx'.weight root < ctx.weight root :=
  Context.weight_lt (Set.ncard_le_ncard (d.parallels_subset h ho hne) h.finite_parallels)
    (.inr ⟨(d.ncard_enclosures_lt h ho hne).le, .inl (d.ncard_enclosures_lt h ho hne)⟩)

end Swap.Done

/-- What something in the program was before a move: itself, or what it is a copy of. -/
inductive Origin (ctx ctx' : Context) (previous copy : OpRef) : OpRef → OpRef → Prop
  | old {x : OpRef} (hex : ctx.HasOp x) (hout : ¬ctx.Within x previous) :
    Origin ctx ctx' previous copy x x
  | new {x y : OpRef} (hnew : ¬ctx.HasOp x) (hx : ctx'.Within x copy)
      (htwin : Twin ctx ctx' previous copy y x) (hy : ctx.Within y previous) :
    Origin ctx ctx' previous copy x y

namespace Absorb.Done

variable {o previous copy : OpRef} {s : ctx.Absorb o previous} {σ : ValueRef → ValueRef}

variable (d : s.Done σ copy ctx') (h : ctx.Tight root) {p x y z : OpRef}

section Origin

include h

theorem origin_unique (hx : Origin ctx ctx' previous copy x z)
    (hy : Origin ctx ctx' previous copy y z) : x = y := by
  cases hx with
  | old hex hout =>
    cases hy with
    | old => rfl
    | new _ _ _ hw => exact absurd hw hout
  | new hnew hx htwin hw =>
    cases hy with
    | old _ hout => exact absurd hw hout
    | new _ _ htwin' _ => exact htwin.symm.unique h.sound htwin'.symm

include d

theorem not_within_copy (hp : ctx.HasOp p) : ¬ctx'.Within p copy := fun hw => by
  obtain ⟨m, y, -, hcopy, -⟩ := d.twin h hw
  exact hcopy.1.isNew hp

/-- What is nested in something that is not the region was so before. -/
theorem within_origin (hp : Origin ctx ctx' previous copy p y)
    (hx : Origin ctx ctx' previous copy x z) (hz : z ≠ o) (hw : ctx'.Within p x) :
    ctx.Within y z := by
  have hs := h.sound
  have hc := hs.coherent
  cases hx with
  | old hex hout =>
    rcases d.within_before hs hex hw with ⟨hpex, hw⟩ | ⟨hpnew, -, ho⟩
    · cases hp with
      | old => exact hw
      | new hnew => exact absurd hpex hnew
    · cases hp with
      | old hpex => exact absurd hpex hpnew
      | new _ _ _ hy =>
        -- what is around the region was around the operation that moved
        obtain ⟨t, ht, htx⟩ := (within_iff_above.1 ho).resolve_left hz.symm
        rw [s.above_region hc, ← s.above_previous hc] at ht
        exact (hy.trans (within_of_above ht)).trans htx
  | new hnew hx htwin hw' =>
    cases hp with
    | old hpex => exact absurd (hw.trans hx) (d.not_within_copy h hpex)
    | new _ _ htwin' hy => exact (htwin.within_iff hs d.sound htwin').2 hw

/-- What was nested in something still is. -/
theorem within_of_origin (hp : Origin ctx ctx' previous copy p y)
    (hx : Origin ctx ctx' previous copy x z) (hw : ctx.Within y z) : ctx'.Within p x := by
  have hs := h.sound
  have hc := hs.coherent
  cases hp with
  | old hpex hpout =>
    cases hx with
    | old => exact d.within hs hw hpout
    | new _ _ _ hz => exact absurd (hw.trans hz) hpout
  | new hnew hpc htwin hy =>
    cases hx with
    | old hex hout =>
      have hprevious := (hw.total hy).resolve_left hout
      obtain ⟨t, ht, htx⟩ := (within_iff_above.1 hprevious).resolve_left fun e =>
        hout (e ▸ .refl _)
      rw [s.above_previous hc, ← s.above_region hc] at ht
      exact (hpc.trans (within_of_above (d.above_copy hs))).trans
        (d.within hs ((within_of_above ht).trans htx) (s.region_not_within hs))
    | new _ _ htwin' _ => exact (htwin'.within_iff hs d.sound htwin).1 hw

end Origin

variable (ho : ctx.Within o root)

include d h ho

theorem exists_origin : ∃ ψ : OpRef → OpRef, ∀ x, ctx'.Within x root →
    Origin ctx ctx' previous copy x (ψ x) ∧ ctx.Within (ψ x) root ∧
      ctx'.kindOf x = ctx.kindOf (ψ x) := by
  have hs := h.sound
  suffices ∀ x, ∃ y, ctx'.Within x root → Origin ctx ctx' previous copy x y ∧
      ctx.Within y root ∧ ctx'.kindOf x = ctx.kindOf y by
    choose ψ hψ using this
    exact ⟨ψ, hψ⟩
  intro x
  by_cases hx : ctx'.Within x root
  · rcases d.within_before hs h.hasRoot hx with ⟨hex, hw⟩ | ⟨hnew, hxc, -⟩
    · have hout := d.not_within_previous hs (fun hw => s.region_not_within hs (ho.trans hw)) hex hx
      exact ⟨x, fun _ => ⟨.old hex hout, hw, d.evolves.kindOf hex⟩⟩
    · obtain ⟨m, y, hy, hcopy, htwin, -⟩ := d.twin h hxc
      exact ⟨y, fun _ => ⟨.new hnew hxc htwin hy, hy.trans (s.within_root h.toStable ho),
        hcopy.1.kind⟩⟩
  · exact ⟨x, fun hw => absurd hw hx⟩

/-- All regions, and all that is nested in something or is not in some region, comes from what was
    so before; but the copy is in the region, and what it comes from was not. -/
theorem weight_lt : ctx'.weight root < ctx.weight root := by
  have hs := h.sound
  obtain ⟨ψ, hψ⟩ := d.exists_origin h ho
  have hinjective (x : OpRef) (hx : ctx'.Within x root) (y : OpRef) (hy : ctx'.Within y root)
      (e : ψ x = ψ y) : x = y := origin_unique h (hψ x hx).1 (e ▸ (hψ y hy).1)
  have hpairs {s : Set (OpRef × OpRef)}
      (hs : ∀ q ∈ s, ctx'.Within q.1 root ∧ ctx'.Within q.2 root) : Set.InjOn (Prod.map ψ ψ) s := by
    rintro ⟨p, x⟩ hp ⟨q, y⟩ hq e
    obtain ⟨e₁, e₂⟩ := Prod.mk.inj e
    rw [hinjective p (hs _ hp).1 q (hs _ hq).1 e₁, hinjective x (hs _ hp).2 y (hs _ hq).2 e₂]
  have hmem {p : OpRef} (hp : p ∈ ctx'.parallels root) : ψ p ∈ ctx.parallels root :=
    ⟨(hψ p hp.1).2.1, (hψ p hp.1).2.2.symm.trans hp.2⟩
  have hparallels : (ctx'.parallels root).ncard ≤ (ctx.parallels root).ncard :=
    Set.ncard_le_ncard_of_injOn ψ (fun p hp => hmem hp)
      (fun p hp q hq e => hinjective p hp.1 q hq.1 e) h.finite_parallels
  have henclosures : (ctx'.enclosures root).ncard ≤ (ctx.enclosures root).ncard := by
    refine Set.ncard_le_ncard_of_injOn (Prod.map ψ ψ) ?_
      (hpairs fun q hq => ⟨hq.1.1, hq.2.1⟩) h.finite_enclosures
    rintro ⟨p, x⟩ ⟨hp, hx, hkind, hw⟩
    obtain ⟨hxo, hxr, hxk⟩ := hψ x hx
    rw [hxk] at hkind
    refine ⟨hmem hp, hxr, hkind, d.within_origin h (hψ p hp.1).1 hxo (fun e : ψ x = o => ?_) hw⟩
    rw [e, s.team.kind] at hkind
    exact absurd hkind (by decide)
  have hexclusions : Prod.map ψ ψ '' ctx'.exclusions root ⊂ ctx.exclusions root := by
    refine Set.ssubset_iff_exists.2 ⟨?_, (o, previous),
      ⟨⟨ho, s.team.kind⟩, s.within_root h.toStable ho, s.previous_not_within hs⟩, ?_⟩
    · rintro _ ⟨⟨p, x⟩, ⟨hp, hx, hw⟩, rfl⟩
      exact ⟨hmem hp, (hψ x hx).2.1, fun hw' =>
        hw (d.within_of_origin h (hψ x hx).1 (hψ p hp.1).1 hw')⟩
    · rintro ⟨⟨p, x⟩, ⟨hp, hx, hw⟩, e⟩
      obtain ⟨e₁, e₂⟩ := Prod.mk.inj e
      have hpo := origin_unique h (e₁ ▸ (hψ p hp.1).1) (.old s.team.hasOp (s.region_not_within hs))
      have hxc := origin_unique h (e₂ ▸ (hψ x hx).1) (.new d.isNew (.refl copy) .top (.refl previous))
      rw [show p = o from hpo, show x = copy from hxc] at hw
      exact hw (within_of_above (d.above_copy hs))
  have hlt := Set.ncard_lt_ncard hexclusions h.finite_exclusions
  rw [(hpairs fun q hq => ⟨hq.1.1, hq.2.1⟩).ncard_image] at hlt
  exact Context.weight_lt hparallels (.inr ⟨henclosures, .inr hlt⟩)

end Absorb.Done

namespace Fuse.Done

variable {o previous barrier : OpRef} {s : ctx.Fuse o previous} (d : s.Done barrier ctx')
  (h : ctx.Tight root) (ho : ctx.Within o root) (hne : o ≠ root)

include d h ho hne

/-- The second region is gone, and there is no new one. -/
theorem ncard_parallels_lt : (ctx'.parallels root).ncard < (ctx.parallels root).ncard := by
  have hs := h.sound
  refine Set.ncard_lt_ncard (Set.ssubset_iff_exists.2 ⟨?_, o, ⟨ho, s.second.kind⟩, fun hq => ?_⟩)
    h.finite_parallels
  · rintro p ⟨hp, hkind⟩
    rcases d.within_before hs ho hne hp with rfl | ⟨hex, hw, -⟩
    · rw [d.bare.kind] at hkind
      exact absurd hkind (by decide)
    · exact ⟨hw, (d.evolves.kindOf hex).symm.trans hkind⟩
  · rcases d.within_before hs ho hne hq.1 with e | ⟨-, -, hne, -⟩
    · exact d.isNew (e ▸ s.second.hasOp)
    · exact hne rfl

theorem weight_lt : ctx'.weight root < ctx.weight root :=
  have hlt := d.ncard_parallels_lt h ho hne
  Context.weight_lt hlt.le (.inl hlt)

end Fuse.Done

end Context

open Context

variable {root : OpRef} {ctx ctx' : Context}

theorem Step.tight (hstep : Step root ctx ctx') (h : ctx.Tight root) : ctx'.Tight root := by
  cases hstep with
  | swap s barriers ho hne d => exact d.tight h ho hne
  | absorb s σ copy ho hne d => exact d.tight h ho
  | fuse s barrier ho hne d => exact d.tight h ho hne

theorem Step.weight_lt (hstep : Step root ctx ctx') (h : ctx.Tight root) :
    ctx'.weight root < ctx.weight root := by
  cases hstep with
  | swap s barriers ho hne d => exact d.weight_lt h ho hne
  | absorb s σ copy ho hne d => exact d.weight_lt h ho
  | fuse s barrier ho hne d => exact d.weight_lt h ho hne

theorem Steps.tight (hsteps : Steps root ctx ctx') (h : ctx.Tight root) : ctx'.Tight root := by
  induction hsteps with
  | refl => exact h
  | tail _ hstep ih => exact hstep.tight ih

/-- However many steps there are in a change, if it has any it uses something up. -/
theorem weight_lt_of_transGen (hsteps : Relation.TransGen (Step root) ctx ctx')
    (h : ctx.Tight root) : ctx'.weight root < ctx.weight root := by
  induction hsteps with
  | single hstep => exact hstep.weight_lt h
  | tail hsteps hstep ih =>
    exact (hstep.weight_lt (Steps.tight hsteps.to_reflTransGen h)).trans ih

end Offload
