import Offload.Proofs.Effects
import Offload.Proofs.Parallel.Run

/-!
# What comes into a region

An operation that no parallel region holds runs once; in a region every worker runs it.
The patterns are meant to move no side effect into a region. Most steps do not, but two
do (`Exposure`): a swap moves all that the outer operation holds besides the region, be
it in another branch or behind the region, and what moves into a region takes along all
that is nested in it. What has a side effect stays outside of all regions iff there is no
such step on the way (`outside_iff`).
-/

namespace Offload

namespace Context

variable {ctx ctx₁ ctx₂ ctx' : Context} {x : OpRef}

/-- An operation is nested in a parallel region. -/
def InParallel (ctx : Context) (x : OpRef) : Prop :=
  ∃ p, ctx.Within x p ∧ x ≠ p ∧ ctx.kindOf p = .parallel

/-- An operation is nested in a parallel region, or was erased after one got a copy. -/
def Exposed (ctx : Context) (x : OpRef) : Prop := ctx.InParallel x ∨ ctx.isErased x

/-- An operation is in a branch of a conditional other than the first, or nested in
    something that ends a block. -/
def Bystander (ctx : Context) (x : OpRef) : Prop :=
  (∃ a b q, ctx.kindOf a = .conditional ∧ (∃ r ∈ (ctx.regionsOf a).tail, b ∈ ctx.blocksOf r) ∧
    q ∈ ctx.opsOf b ∧ ctx.Within x q) ∨ ∃ a, ctx.Within x a ∧ (ctx.kindOf a).isTerminator

/-- All that an operation is nested in is where it was. -/
def Undisturbed (ctx ctx' : Context) (x : OpRef) : Prop :=
  ∀ q, ctx.Within x q → ctx'.blockOf q = ctx.blockOf q

theorem Undisturbed.refl (ctx : Context) (x : OpRef) : ctx.Undisturbed ctx x := fun _ _ => rfl

theorem Undisturbed.within_iff (h : ctx.Undisturbed ctx' x) (hev : ctx.Evolves ctx')
    (hc : ctx.Coherent) {a : OpRef} : ctx'.Within x a ↔ ctx.Within x a := by
  have habove (q : OpRef) (hq : ctx.Within x q) : ctx'.above q = ctx.above q :=
    hev.above_eq hc (h q hq)
  constructor
  · intro hw
    induction hw with
    | refl => exact .refl x
    | tail _ hstep ih => exact ih.trans (within_of_above (habove _ ih ▸ hstep))
  · intro hw
    induction hw with
    | refl => exact .refl x
    | tail hq hstep ih => exact ih.trans (within_of_above ((habove _ hq).trans hstep))

theorem Undisturbed.trans (h₁ : ctx.Undisturbed ctx₁ x) (h₂ : ctx₁.Undisturbed ctx₂ x)
    (hev : ctx.Evolves ctx₁) (hc : ctx.Coherent) : ctx.Undisturbed ctx₂ x := fun q hq =>
  (h₂ q ((h₁.within_iff hev hc).2 hq)).trans (h₁ q hq)

theorem Undisturbed.inParallel_iff (h : ctx.Undisturbed ctx' x) (hev : ctx.Evolves ctx')
    (hc : ctx.Coherent) (hx : ctx.HasOp x) : ctx'.InParallel x ↔ ctx.InParallel x := by
  refine exists_congr fun p => ?_
  rw [h.within_iff hev hc]
  refine and_congr_right fun hw => and_congr_right fun _ => ?_
  rw [hev.kindOf (hc.hasOp_of_within hw hx)]

/-- What is a bystander later was one before, as far as nothing around it has moved. -/
theorem Undisturbed.bystander (h : ctx.Undisturbed ctx' x) (hev : ctx.Evolves ctx')
    (hc : ctx.Coherent) (hc' : ctx'.Coherent) (hx : ctx.HasOp x) (hb : ctx'.Bystander x) :
    ctx.Bystander x := by
  rcases hb with ⟨a, b, q, hkind, ⟨r, hr, hb⟩, hq, hw⟩ | ⟨a, hw, hterm⟩
  · rw [h.within_iff hev hc] at hw
    have hblock : ctx.blockOf q = some b := (h q hw).symm.trans ((hc'.ops.owner_iff q b).2 hq)
    have habove : ctx.above q = some a :=
      (hev.above_eq hc (h q hw)).symm.trans ((hc'.above_of_mem hq).trans
        (hc'.holder_of_mem (List.mem_of_mem_tail hr) hb))
    have ha := (hc.hasOp_of_above habove).2
    rw [hev.kindOf ha] at hkind
    rw [hev.regionsOf ha] at hr
    rw [hev.blocksOf (hc.hasRegion_of_mem (List.mem_of_mem_tail hr))] at hb
    exact .inl ⟨a, b, q, hkind, ⟨r, hr, hb⟩, (hc.ops.owner_iff q b).1 hblock, hw⟩
  · rw [h.within_iff hev hc] at hw
    rw [hev.kindOf (hc.hasOp_of_within hw hx)] at hterm
    exact .inr ⟨a, hw, hterm⟩

end Context

open Context

/-- A step moves an operation into a region: by a swap with something around the
    operation, where the region does not hold it, or with something that it is nested in. -/
inductive Exposure (root x : OpRef) (ctx ctx' : Context) : Prop
  | swap {o outer : OpRef} (s : ctx.Swap o outer) (barriers : List OpRef)
      (ho : ctx.Within o root) (hne : o ≠ root) (d : s.Done barriers ctx')
      (hx : ctx.Within x outer) (hout : ¬ctx.Within x o)
  | absorb {o previous : OpRef} (s : ctx.Absorb o previous) (σ : ValueRef → ValueRef)
      (copy : OpRef) (ho : ctx.Within o root) (hne : o ≠ root) (d : s.Done σ copy ctx')
      (hx : ctx.Within x previous)

variable {root x : OpRef} {ctx ctx' : Context}

/-! ## Steps -/

theorem Exposure.step (h : Exposure root x ctx ctx') : Step root ctx ctx' := by
  cases h with
  | swap s barriers ho hne d _ _ => exact .swap s barriers ho hne d
  | absorb s σ copy ho hne d _ => exact .absorb s σ copy ho hne d

/-- What is in the outer operation comes into the region. -/
theorem Context.Swap.Done.within_region {o outer : OpRef} {s : ctx.Swap o outer}
    {barriers : List OpRef} (d : s.Done barriers ctx') (h : ctx.Sound)
    (hx : ctx.Within x outer) (hout : ¬ctx.Within x o) : ctx'.Within x o := by
  induction hx using Relation.ReflTransGen.head_induction_on with
  | refl => exact within_of_above (d.above_outer h)
  | @head p q hstep _ ih =>
    have hq : ¬ctx.Within q o := fun hw => hout ((within_of_above hstep).trans hw)
    by_cases houter : p = outer
    · exact houter ▸ within_of_above (d.above_outer h)
    have hcontent : p ∉ s.team.contents := fun hm =>
      hout (within_of_above (above_content_before h.coherent hm))
    exact (within_of_above (d.above_other h (fun e => hout (e ▸ .refl p)) houter hcontent
      hstep)).trans (ih hq)

theorem Exposure.exposed (h : Exposure root x ctx ctx') (hs : ctx.Stable root)
    (hx : ctx.HasOp x) : ctx'.Exposed x := by
  cases h with
  | @swap o outer s barriers ho hne d hw hout =>
    refine .inl ⟨o, d.within_region hs.sound hw hout, fun e => hout (e ▸ .refl x), ?_⟩
    rw [d.evolves.kindOf s.team.hasOp, s.team.kind]
  | absorb s σ copy ho hne d hw => exact .inr ((d.erased x hx).2 (.inl hw))

/-- What is in a region stays in one, unless it is erased. -/
theorem Step.exposed (h : Step root ctx ctx') (hs : ctx.Stable root) (hx : ctx.HasOp x)
    (hexposed : ctx.Exposed x) : ctx'.Exposed x := by
  have hc := hs.sound.coherent
  rcases hexposed with ⟨p, hw, hne, hkind⟩ | herased
  swap
  · exact .inr (h.evolves.erased x herased)
  have hkind' : ctx'.kindOf p = .parallel :=
    (h.evolves.kindOf (hc.hasOp_of_within hw hx)).trans hkind
  cases h with
  | @swap o outer s barriers _ _ d =>
    refine .inl ⟨p, d.within hs.sound hw ?_, hne, hkind'⟩
    rintro rfl
    rcases s.kind with hk | hk <;> rw [hk] at hkind <;> exact absurd hkind (by decide)
  | @absorb o previous s σ copy _ _ d =>
    by_cases hprevious : ctx.Within x previous
    · exact .inr ((d.erased x hx).2 (.inl hprevious))
    · exact .inl ⟨p, d.within hs.sound hw hprevious, hne, hkind'⟩
  | @fuse o previous s barrier _ _ d =>
    by_cases hlost : x = o ∨ ctx.Within x s.first.last
    · exact .inr ((d.erased x hx).2 (hlost.imp_right .inl))
    rw [not_or] at hlost
    by_cases hp : p = o
    · -- the first region holds it now
      subst hp
      obtain ⟨c, hc', hxc⟩ := (within_iff_below.1 hw).resolve_left hne
      have hlast : c ≠ s.first.last := fun e => hlost.2 (e ▸ hxc)
      have hcp : c ≠ p := fun e => hs.sound.grounded.not_within_above hc' (e ▸ .refl _)
      refine .inl ⟨previous, (d.within hs.sound hxc hlost.1 hlost.2 hcp).trans
        (within_of_above (d.above_content hs.sound hcp hlast hc')), ?_, ?_⟩
      · rintro rfl
        exact s.ne hc (hs.sound.eq_of_within_of_blockOf (s.blockOf_previous hc)
          (s.blockOf_region hc) hw).symm
      · rw [d.evolves.kindOf s.first.hasOp, s.first.kind]
    · exact .inl ⟨p, d.within hs.sound hw hlost.1 hlost.2 hp, hne, hkind'⟩

/-- All other steps leave what is around the operation where it is, if no region holds
    it. -/
theorem Step.undisturbed (h : Step root ctx ctx') (hs : ctx.Stable root)
    (hx : ctx.HasOp x) (hkind : ctx.kindOf x ≠ .parallel) (hout : ¬ctx.InParallel x)
    (hnot : ¬Exposure root x ctx ctx') : ctx.Undisturbed ctx' x := by
  have hc := hs.sound.coherent
  have hregion (p : OpRef) (hp : ctx.kindOf p = .parallel) : ¬ctx.Within x p := fun hw =>
    hout ⟨p, hw, fun e => hkind (e ▸ hp), hp⟩
  intro q hq
  have hex := hc.hasOp_of_within hq hx
  cases h with
  | @swap o outer s barriers ho hne d =>
    have hxo := hregion o s.team.kind
    refine d.blockOf_other hs.sound hex (fun e => hxo (e ▸ hq)) (fun e => ?_) fun hm => ?_
    · exact hnot (.swap s barriers ho hne d (e ▸ hq) hxo)
    · exact hxo (hq.trans (within_of_above (Swap.Done.above_content_before hc hm)))
  | @absorb o previous s σ copy ho hne d =>
    have hprevious : q ≠ previous := fun e => hnot (.absorb s σ copy ho hne d (e ▸ hq))
    rw [d.blockOf q hex, if_neg hprevious]
  | @fuse o previous s barrier ho hne d =>
    have hxo := hregion o s.second.kind
    rw [d.blockOf q hex, if_neg, if_neg]
    · exact fun hm => hxo (hq.trans (within_of_above (s.above_content hc hm)))
    · rintro (rfl | rfl)
      · exact hxo hq
      · exact hregion previous s.first.kind (hq.trans (within_of_above (s.above_last hc)))

/-- A swap or a move takes an operation with a side effect along only where it is a
    bystander. -/
theorem Exposure.bystander (h : Exposure root x ctx ctx') (hs : ctx.Stable root)
    (hregions : ctx.regionsOf x = []) (heffect : ¬onlyReads (ctx.kindOf x)) :
    ctx.Bystander x := by
  have hc := hs.sound.coherent
  cases h with
  | @absorb o previous s σ copy ho hne d hw =>
    have hroot := s.within_root hs ho
    exact .inr (hc.exists_terminator_of_isReadOnlyWithin
      (fun p hp => hs.shaped p (hp.trans hroot)) s.readOnly hw heffect)
  | @swap o outer s barriers ho hne d hw hout =>
    have hroot : ctx.Within outer root := by
      obtain ⟨t, ht, hw⟩ := (within_iff_above.1 ho).resolve_left hne
      exact Option.some.inj ((s.above_region hc).symm.trans ht) ▸ hw
    obtain ⟨r, hr, hinner⟩ := s.inner_first
    have hneeds : (ctx.kindOf outer).needsTerminator := by
      rcases s.kind with hk | hk <;> rw [hk] <;> decide
    obtain ⟨q, hq, hxq⟩ := (within_iff_below.1 hw).resolve_left (by
      rintro rfl
      rw [hregions] at hr
      cases hr)
    obtain ⟨b, hb, hholder⟩ := Option.bind_eq_some_iff.1 hq
    have hmem := (hc.ops.owner_iff q b).1 hb
    by_cases hbranch : b = s.inner
    · -- it is behind the region
      obtain ⟨last, hlast, hterm⟩ := hs.ended outer hroot hneeds r (List.mem_of_getElem? hr)
        s.inner (List.mem_of_head? hinner)
      rw [hbranch, s.inner_ops, List.mem_pair] at hmem
      rcases hmem with rfl | rfl
      · exact absurd hxq hout
      · rw [s.inner_ops] at hlast
        obtain rfl := Option.some.inj hlast
        exact .inr ⟨_, hxq, hterm⟩
    · obtain ⟨r', hr', howner⟩ := Option.bind_eq_some_iff.1 hholder
      have hlisted := (hc.blocks.owner_iff b r').1 hr'
      have hregion := (hc.regions.owner_iff r' outer).1 howner
      rcases s.kind with hk | hk
      · obtain ⟨r₁, b₁, hr₁, hb₁, -⟩ := hs.loop_block hroot hk
        rw [hr₁, List.mem_singleton] at hregion
        rw [hr₁] at hr
        obtain rfl := Option.some.inj hr
        rw [hregion, hb₁, List.mem_singleton] at hlisted
        rw [hb₁] at hinner
        exact absurd (hlisted.trans (Option.some.inj hinner)) hbranch
      · obtain ⟨r₁, rest, b₁, hr₁, hb₁, -⟩ := hs.branch_block hroot hk
        rw [hr₁] at hr
        obtain rfl := Option.some.inj hr
        rw [hb₁] at hinner
        rw [hr₁, List.mem_cons] at hregion
        refine .inl ⟨outer, b, q, hk, ⟨r', ?_, hlisted⟩, hmem, hxq⟩
        rw [hr₁]
        refine hregion.resolve_left ?_
        rintro rfl
        rw [hb₁, List.mem_singleton] at hlisted
        exact hbranch (hlisted.trans (Option.some.inj hinner))

/-! ## Runs -/

/-- Up to the first step that moves it into a region, what is around an operation is where
    it was. -/
theorem Steps.undisturbed_or_exposure (hsteps : Steps root ctx ctx') (hs : ctx.Stable root)
    (hx : ctx.Within x root) (hkind : ctx.kindOf x ≠ .parallel) (hout : ¬ctx.InParallel x) :
    ctx.Undisturbed ctx' x ∨ ∃ c c', Steps root ctx c ∧ ctx.Undisturbed c x ∧
      Exposure root x c c' ∧ Steps root c' ctx' := by
  have hex := hs.sound.coherent.hasOp_of_within' hx hs.hasRoot
  induction hsteps with
  | refl => exact .inl (.refl ctx x)
  | @tail c c' hsteps hstep ih =>
    rcases ih with hu | ⟨c₁, c₂, hsteps₁, hu, hexposure, hsteps₂⟩
    · have hev := Steps.evolves hsteps
      by_cases hnot : Exposure root x c c'
      · exact .inr ⟨c, c', hsteps, hu, hnot, .refl⟩
      · refine .inl (hu.trans (hstep.undisturbed (Steps.stable hsteps hs) (hev.hasOp hex) ?_ ?_ hnot)
          hev hs.sound.coherent)
        · rwa [hev.kindOf hex]
        · rwa [hu.inParallel_iff hev hs.sound.coherent hex]
    · exact .inr ⟨c₁, c₂, hsteps₁, hu, hexposure, hsteps₂.tail hstep⟩

theorem Steps.exposed (hsteps : Steps root ctx ctx') (hs : ctx.Stable root) (hx : ctx.HasOp x)
    (hexposed : ctx.Exposed x) : ctx'.Exposed x := by
  induction hsteps with
  | refl => exact hexposed
  | tail hsteps hstep ih =>
    exact hstep.exposed (Steps.stable hsteps hs) ((Steps.evolves hsteps).hasOp hx) ih

namespace Parallel

variable {path text : String} {findings : Findings}

/-- What has a side effect and is in no region stays in the program and outside of all
    regions iff no step of a run moves it into one. None does unless it is a bystander. -/
theorem outside_iff (hread : Context.empty.read path text = (.ok root, ctx))
    (hfindings : ctx.findings root = .ok findings) (hvalid : findings.isEmpty)
    (maxPasses : Nat) {result : GreedyResult}
    (hrun : { patterns, maxPasses : Greedy }.run ctx root = .ok (ctx', result))
    (hx : ctx.Within x root) (hregions : ctx.regionsOf x = [])
    (heffect : ctx.isReadOnly x = .ok false) (hout : ¬ctx.InParallel x) :
    ((ctx'.Within x root ∧ ¬ctx'.InParallel x) ↔
      ∀ c c', Steps root ctx c → Exposure root x c c' → ¬Steps root c' ctx') ∧
    (¬ctx.Bystander x → ctx'.Within x root ∧ ¬ctx'.InParallel x) := by
  have h := stable_of_read hread hfindings hvalid
  have hc := h.sound.coherent
  have hex := hc.hasOp_of_within' hx h.hasRoot
  have hreaches := Greedy.run_reaches hrun
  have hsteps := steps_of_reaches rfl h hreaches
  have heffect : ¬onlyReads (ctx.kindOf x) := by
    rw [(isReadOnly_eq_ok_iff hex hregions).1 heffect]
    exact Bool.false_ne_true
  have hkind : ctx.kindOf x ≠ .parallel := fun hk => by
    obtain ⟨team⟩ := h.nonempty_team hx hk
    rw [team.regions] at hregions
    cases hregions
  have hstays (hu : ctx.Undisturbed ctx' x) : ctx'.Within x root ∧ ¬ctx'.InParallel x := by
    rw [hu.within_iff hsteps.evolves hc, hu.inParallel_iff hsteps.evolves hc hex]
    exact ⟨hx, hout⟩
  have hor := hsteps.undisturbed_or_exposure h hx hkind hout
  refine ⟨⟨fun ⟨hw, hout'⟩ c c' hsteps₁ hexposure hsteps₂ => ?_, fun hnone => ?_⟩,
    fun hbystander => ?_⟩
  · have hc₁ := hsteps₁.stable h
    have hex₁ := hsteps₁.evolves.hasOp hex
    rcases hsteps₂.exposed (hexposure.step.stable hc₁) (hexposure.step.evolves.hasOp hex₁)
      (hexposure.exposed hc₁ hex₁) with hin | herased
    · exact hout' hin
    · exact (hsteps.stable h).live x hw herased
  · rcases hor with hu | ⟨c, c', hsteps₁, -, hexposure, hsteps₂⟩
    · exact hstays hu
    · exact absurd hsteps₂ (hnone c c' hsteps₁ hexposure)
  · rcases hor with hu | ⟨c, c', hsteps₁, hu, hexposure, -⟩
    · exact hstays hu
    · have hev := hsteps₁.evolves
      have hb := hexposure.bystander (hsteps₁.stable h) (by rwa [hev.regionsOf hex])
        (by rwa [hev.kindOf hex])
      exact absurd (hu.bystander hev hc (hsteps₁.stable h).sound.coherent hex hb) hbystander

/-- A conditional that launches a team in the first branch, and stores in the second. -/
def storeBeside : String :=
  "func.func @f \x7btype = func.fn(core.nil, core.i1, core.ptr)\x7d \x7b
  ^bb0(%c: core.i1, %p: core.ptr):
    scf.if %c \x7b
      omp.parallel \x7b
        omp.terminator
      \x7d
      scf.yield
    \x7d \x7b
      mem.store %c, %p
      scf.yield
    \x7d
    func.return
\x7d"

set_option maxRecDepth 100000 in
/-- The store comes into the region when the region is swapped with the conditional. -/
theorem outside_iff_storeBeside : ∃ root ctx ctx', ∃ result : GreedyResult, ∃ x,
    Context.empty.read "f" storeBeside = (.ok root, ctx) ∧
      { patterns, maxPasses := 47 : Greedy }.run ctx root = .ok (ctx', result) ∧
        ctx.kindOf x = .store ∧ ¬ctx.InParallel x ∧ ctx'.InParallel x ∧
          ∃ c c', Steps root ctx c ∧ Exposure root x c c' ∧ Steps root c' ctx' := by
  have hends : endsWith "f" storeBeside 47 (fun root ctx ctx' _ =>
    decide (ctx.kindOf ⟨3⟩ = .store ∧ ctx.above ⟨3⟩ = some ⟨5⟩ ∧ ctx.above ⟨5⟩ = some root ∧
      ctx.above root = none ∧ ctx.kindOf ⟨5⟩ = .conditional ∧ ctx.kindOf root = .func ∧
        ctx.regionsOf ⟨3⟩ = [] ∧ ctx.isReadOnly ⟨3⟩ = .ok false ∧ ctx'.above ⟨3⟩ = some ⟨5⟩ ∧
          ctx'.above ⟨5⟩ = some ⟨1⟩ ∧ ctx'.kindOf ⟨1⟩ = .parallel)) :=
    endsWith_ofList (by decide +kernel)
  obtain ⟨root, ctx, findings, ctx', result, hread, hfindings, hvalid, hrun, htest⟩ :=
    exists_of_endsWith hends
  obtain ⟨hstore, habove, hroot, htop, hconditional, hfunc, hregions, heffect, habove', hregion,
    hparallel⟩ := of_decide_eq_true htest
  have hout : ¬ctx.InParallel ⟨3⟩ := by
    rintro ⟨p, hw, hne, hp⟩
    obtain ⟨q, hq, hw⟩ := (within_iff_above.1 hw).resolve_left hne
    obtain rfl := Option.some.inj (habove.symm.trans hq)
    rcases within_iff_above.1 hw with rfl | ⟨q, hq, hw⟩
    · exact absurd (hconditional.symm.trans hp) (by decide)
    obtain rfl := Option.some.inj (hroot.symm.trans hq)
    rcases within_iff_above.1 hw with rfl | ⟨q, hq, hw⟩
    · exact absurd (hfunc.symm.trans hp) (by decide)
    · exact absurd (htop.symm.trans hq) (by simp)
  have hin : ctx'.InParallel ⟨3⟩ :=
    ⟨⟨1⟩, (within_of_above habove').trans (within_of_above hregion), by decide, hparallel⟩
  refine ⟨root, ctx, ctx', result, ⟨3⟩, hread, hrun, hstore, hout, hin, ?_⟩
  by_contra hnone
  refine ((outside_iff hread hfindings hvalid 47 hrun
    ((within_of_above habove).trans (within_of_above hroot)) hregions heffect hout).1.2
    fun c c' h₁ hexposure h₂ => hnone ⟨c, c', h₁, hexposure, h₂⟩).2 hin

end Parallel

end Offload
