import Offload.Proofs.Parallel.Exposure
import Offload.Proofs.Source.Mention

/-!
# What a run leaves alone

The patterns are applied to what is nested in a root, and are meant to leave the root where
it is and everything around it alone. They reach further in one case only: a region that is
alone in a loop or a conditional takes the place of that operation, be it the root itself.
So a run changes nothing around the root, but that a region may stand in the place of the
root, with the root in it (`Surrounds`). The root has kept its place iff there is none, and
there is none unless the root is in a block and is a loop or a conditional without results
(`run_around`).
-/

namespace Offload

namespace Context

variable {ctx ctx₁ ctx' : Context} {root top x y : OpRef}

/-- A block is not in an operation. -/
def Outside (ctx : Context) (b : BlockRef) (o : OpRef) : Prop :=
  ctx.HasBlock b ∧ ∀ a, ctx.holder b = some a → ¬ctx.Within a o

/-- An operation that a region can leave: a loop or a conditional, without results. -/
def Leavable (ctx : Context) (o : OpRef) : Prop :=
  (ctx.kindOf o = .loop ∨ ctx.kindOf o = .conditional) ∧ ctx.results o = []

/-- Nothing around the root has changed, but that `x` stands in its place. That is the root,
    or a region with the root in it. -/
structure Surrounds (ctx : Context) (root x : OpRef) (ctx' : Context) : Prop where
  blockOf : ∀ p, ctx.HasOp p → ¬ctx.Within p root → ctx'.blockOf p = ctx.blockOf p
  op : ∀ p, ctx.HasOp p → ¬ctx.isErased p → ¬ctx.Within p root → ctx'.op p = ctx.op p
  opsOf : ∀ b, ctx.Outside b root →
    ctx'.opsOf b = (ctx.opsOf b).map fun p => if p = root then x else p
  place : ctx'.blockOf x = ctx.blockOf root
  within : ctx'.Within root x
  region : x ≠ root → ctx'.kindOf x = .parallel ∧ ctx.Leavable root

/-- An operation that is neither moved nor given other operands nor erased is as it was. -/
theorem Evolves.op_eq (h : ctx.Evolves ctx') {p : OpRef} (hp : ctx.HasOp p)
    (hlive : ctx'.isErased p = ctx.isErased p) (hheld : ctx'.operandsOf p = ctx.operandsOf p)
    (hblock : ctx'.blockOf p = ctx.blockOf p) : ctx'.op p = ctx.op p := by
  obtain ⟨row, hrow⟩ := hasOp_iff.1 hp
  obtain ⟨row', hrow', hfixed⟩ := h.op p row hrow
  rw [isErased_eq_readOp, isErased_eq_readOp, readOp_of_op hrow, readOp_of_op hrow'] at hlive
  rw [Context.operandsOf, Context.operandsOf, readOp_of_op hrow, readOp_of_op hrow'] at hheld
  rw [Context.blockOf, Context.blockOf, readOp_of_op hrow, readOp_of_op hrow'] at hblock
  rw [hrow, hrow']
  have hrows : row' = { row'.fixed with
      operands := row'.operands, parent := row'.parent, erased := row'.erased } := rfl
  rw [hrows, hfixed, hlive, hheld, hblock]
  rfl

/-- What is nested in the root and listed outside of it is the root. -/
theorem Outside.eq_root (hc : ctx.Coherent) {b : BlockRef} (hb : ctx.Outside b root) {p : OpRef}
    (hp : p ∈ ctx.opsOf b) (hw : ctx.Within p root) : p = root := by
  by_contra hne
  obtain ⟨t, ht, hwt⟩ := (within_iff_above.1 hw).resolve_left hne
  exact hb.2 t ((hc.above_of_mem hp).symm.trans ht) hwt

/-- In a list without the root, nothing takes its place. -/
theorem map_replace_of_not_mem {l : List OpRef} (h : root ∉ l) :
    (l.map fun p => if p = root then x else p) = l := by
  refine (List.map_congr_left fun p hp => if_neg ?_).trans (List.map_id l)
  rintro rfl
  exact h hp

theorem map_replace_self (l : List OpRef) : (l.map fun p => if p = root then root else p) = l := by
  refine (List.map_congr_left fun p _ => ?_).trans (List.map_id l)
  split
  · exact Eq.symm ‹_›
  · rfl

namespace Surrounds

/-- The root is where it was. -/
theorem of_unmoved (hblock : ∀ p, ctx.HasOp p → p = root ∨ ¬ctx.Within p root →
      ctx'.blockOf p = ctx.blockOf p)
    (hop : ∀ p, ctx.HasOp p → ¬ctx.isErased p → ¬ctx.Within p root → ctx'.op p = ctx.op p)
    (hops : ∀ b, ctx.Outside b root → ctx'.opsOf b = ctx.opsOf b) (hroot : ctx.HasOp root) :
    ctx.Surrounds root root ctx' where
  blockOf p hp hout := hblock p hp (.inr hout)
  op := hop
  opsOf b hb := (hops b hb).trans (map_replace_self _).symm
  place := hblock root hroot (.inl rfl)
  within := .refl root
  region hne := absurd rfl hne

theorem refl (hroot : ctx.HasOp root) : ctx.Surrounds root root ctx :=
  .of_unmoved (fun _ _ _ => rfl) (fun _ _ _ _ => rfl) (fun _ _ => rfl) hroot

section

variable (a : ctx.Surrounds root x ctx₁) (h : ctx.Sound) (hev : ctx.Evolves ctx₁)

include a h hev

/-- What is around the root stays around it. -/
theorem not_within {p : OpRef} (hp : ctx.HasOp p) (hout : ¬ctx.Within p root) :
    ¬ctx₁.Within p root := by
  have hu : ctx.Undisturbed ctx₁ p := fun q hq =>
    a.blockOf q (h.coherent.hasOp_of_within hq hp) fun hw => hout (hq.trans hw)
  rwa [hu.within_iff hev h.coherent]

theorem outside {b : BlockRef} (hb : ctx.Outside b root) : ctx₁.Outside b root := by
  refine ⟨hev.hasBlock hb.1, fun t ht => ?_⟩
  rw [hev.holder_eq h.coherent hb.1] at ht
  exact a.not_within h hev (h.coherent.hasOp_of_holder ht) (hb.2 t ht)

omit a h in
theorem leavable (hl : ctx₁.Leavable root) (hroot : ctx.HasOp root) : ctx.Leavable root := by
  rwa [Leavable, hev.kindOf hroot, hev.results hroot] at hl

/-- Another change around the root. Once a region has taken the place of the root, nothing
    else does. -/
theorem trans (hroot : ctx.HasOp root) (a' : ctx₁.Surrounds root y ctx') (h₁ : ctx₁.Sound)
    (hev' : ctx₁.Evolves ctx') (hnested : ctx₁.Within root x → ctx'.Within root x) :
    ∃ z, ctx.Surrounds root z ctx' := by
  have hblock (p : OpRef) (hp : ctx.HasOp p) (hout : ¬ctx.Within p root) :
      ctx'.blockOf p = ctx.blockOf p :=
    (a'.blockOf p (hev.hasOp hp) (a.not_within h hev hp hout)).trans (a.blockOf p hp hout)
  have hop (p : OpRef) (hp : ctx.HasOp p) (hlive : ¬ctx.isErased p) (hout : ¬ctx.Within p root) :
      ctx'.op p = ctx.op p := by
    have hop₁ := a.op p hp hlive hout
    obtain ⟨row, hrow⟩ := hasOp_iff.1 hp
    have herased : ctx₁.isErased p = ctx.isErased p := by
      rw [isErased_eq_readOp, isErased_eq_readOp, readOp_of_op (hop₁.trans hrow), readOp_of_op hrow]
    exact (a'.op p (hev.hasOp hp) (herased ▸ hlive) (a.not_within h hev hp hout)).trans hop₁
  by_cases hx : x = root
  · subst hx
    refine ⟨y, hblock, hop, fun b hb => ?_, a'.place.trans a.place, a'.within, fun hne => ?_⟩
    · rw [a'.opsOf b (a.outside h hev hb), a.opsOf b hb, map_replace_self]
    · exact (a'.region hne).imp_right fun hl => leavable hev hl hroot
  · have hout : ¬ctx₁.Within x root := fun hw => hx (h₁.grounded.antisymm hw a.within)
    have hex : ctx₁.HasOp x := h₁.coherent.hasOp_of_within a.within (hev.hasOp hroot)
    refine ⟨x, hblock, hop, fun b hb => ?_, (a'.blockOf x hex hout).trans a.place,
      hnested a.within, fun hne => ?_⟩
    · rw [a'.opsOf b (a.outside h hev hb), map_replace_of_not_mem, a.opsOf b hb]
      -- the root has left its block
      rw [a.opsOf b hb, List.mem_map]
      rintro ⟨p, -, hp⟩
      split at hp
      · exact hx hp
      · exact absurd hp ‹_›
    · obtain ⟨hkind, hl⟩ := a.region hne
      exact ⟨(hev'.kindOf hex).trans hkind, hl⟩

end

end Surrounds

/-! ## Steps -/

/-- A swap in the root. The region takes the place of the root if it was directly in it. -/
theorem Swap.Done.around {o outer : OpRef} {s : ctx.Swap o outer} {barriers : List OpRef}
    (d : s.Done barriers ctx') (h : ctx.Sound) (hroot : ctx.HasOp root) (ho : ctx.Within o root)
    (hne : o ≠ root) : ∃ x, ctx.Surrounds root x ctx' := by
  have hc := h.coherent
  have houter : ctx.Within outer root := by
    obtain ⟨t, ht, hw⟩ := (within_iff_above.1 ho).resolve_left hne
    exact Option.some.inj ((s.above_region hc).symm.trans ht) ▸ hw
  have hcontent {p : OpRef} (hp : p ∈ s.team.contents) : ctx.Within p o :=
    within_of_above (above_content_before hc hp)
  have hblock (p : OpRef) (hp : ctx.HasOp p) (hout : ¬ctx.Within p root) :
      ctx'.blockOf p = ctx.blockOf p :=
    d.blockOf_other h hp (fun e => hout (e ▸ ho)) (fun e => hout (e ▸ houter))
      fun hm => hout ((hcontent hm).trans ho)
  have hop (p : OpRef) (hp : ctx.HasOp p) (hlive : ¬ctx.isErased p) (hout : ¬ctx.Within p root) :
      ctx'.op p = ctx.op p :=
    d.evolves.op_eq hp (by rw [d.erased]) (d.evolves.operandsOf (by rwa [d.erased])
      (by rw [d.held])) (hblock p hp hout)
  have hinner {b : BlockRef} (hb : ctx.Outside b root) : b ≠ s.inner := by
    rintro rfl
    exact hne (hb.eq_root hc (by simp [s.inner_ops]) ho)
  have hbody {b : BlockRef} (hb : ctx.Outside b root) : b ≠ s.team.body := by
    rintro rfl
    exact hb.2 o (s.team.holder hc) ho
  by_cases hmoved : outer = root
  · -- the root is what the region leaves
    subst hmoved
    refine ⟨o, hblock, hop, fun b hb => ?_, ?_, within_of_above (d.above_outer h), fun _ => ?_⟩
    · by_cases hplace : b = s.place
      · have hnodup := hc.ops.nodup s.place
        rw [s.place_ops, List.nodup_append, List.nodup_cons] at hnodup
        obtain ⟨-, ⟨hafter, -⟩, hapart⟩ := hnodup
        have hbefore : outer ∉ s.before := fun hm => hapart outer hm outer List.mem_cons_self rfl
        rw [hplace, d.place, s.place_ops, List.map_append, List.map_cons, if_pos rfl,
          map_replace_of_not_mem hbefore, map_replace_of_not_mem hafter]
      · rw [d.other b hplace (hbody hb) (hinner hb), map_replace_of_not_mem]
        exact hc.not_mem_of_ne (b := s.place) (by simp [s.place_ops]) hplace
    · rw [d.blockOf_region]
      exact ((hc.ops.owner_iff outer s.place).2 (by simp [s.place_ops])).symm
    · exact ⟨(d.evolves.kindOf s.team.hasOp).trans s.team.kind, s.kind, s.results⟩
  · refine ⟨root, .of_unmoved (fun p hp => ?_) hop (fun b hb => ?_) hroot⟩
    · rintro (rfl | hout)
      · refine d.blockOf_other h hp hne.symm (Ne.symm hmoved) fun hm => ?_
        exact hne (h.grounded.antisymm ho (hcontent hm))
      · exact hblock p hp hout
    · refine d.other b ?_ (hbody hb) (hinner hb)
      rintro rfl
      exact hmoved (hb.eq_root hc (by simp [s.place_ops]) houter)

/-- A move into a region of the root. -/
theorem Absorb.Done.around {o previous copy : OpRef} {s : ctx.Absorb o previous}
    {σ : ValueRef → ValueRef} (d : s.Done σ copy ctx') (h : ctx.Sound) (hroot : ctx.HasOp root)
    (ho : ctx.Within o root) (hne : o ≠ root) : ctx.Surrounds root root ctx' := by
  have hc := h.coherent
  have hprevious : ctx.Within previous root :=
    hc.within_of_beside (b := s.place) (by simp [s.place_ops]) (by simp [s.place_ops]) ho hne
  have hblock (p : OpRef) (hp : ctx.HasOp p) (hout : p = root ∨ ¬ctx.Within p root) :
      ctx'.blockOf p = ctx.blockOf p := by
    rw [d.blockOf p hp, if_neg]
    rintro rfl
    rcases hout with rfl | hout
    · exact s.region_not_within h ho
    · exact hout hprevious
  refine .of_unmoved hblock (fun p hp hlive hout => ?_) (fun b hb => ?_) hroot
  · have hlive' : ¬ctx'.isErased p := fun he =>
      ((d.erased p hp).1 he).elim (fun hw => hout (hw.trans hprevious)) hlive
    have hheld := d.held p hp hlive'
    -- nothing around the root uses what has moved
    have hsame : (ctx.heldBy p).map (s.rename σ) = ctx.heldBy p := by
      refine (List.map_congr_left fun v hv => if_neg fun hres => ?_).trans (List.map_id _)
      obtain ⟨i, hi⟩ := List.mem_iff_getElem?.1 hv
      exact hout ((s.used v hres ⟨p, i⟩ ((hc.uses.mem_iff v ⟨p, i⟩).2 hi)).trans ho)
    rw [Bool.not_eq_true] at hlive hlive'
    exact d.evolves.op_eq hp (hlive'.trans hlive.symm)
      (d.evolves.operandsOf (by simp [hlive']) (hheld.trans hsame)) (hblock p hp (.inr hout))
  · rw [d.other b hb.1 ?_, filter_ne_self fun hm => ?_]
    · exact s.region_not_within h ((hb.eq_root hc hm hprevious).symm ▸ ho)
    · rintro rfl
      exact hb.2 o (s.team.holder hc) ho

/-- A fusion of two regions of the root. -/
theorem Fuse.Done.around {o previous barrier : OpRef} {s : ctx.Fuse o previous}
    (d : s.Done barrier ctx') (h : ctx.Sound) (hroot : ctx.HasOp root)
    (ho : ctx.Within o root) (hne : o ≠ root) : ctx.Surrounds root root ctx' := by
  have hc := h.coherent
  have hprevious : ctx.Within previous root :=
    hc.within_of_beside (b := s.place) (by simp [s.place_ops]) (by simp [s.place_ops]) ho hne
  have hlast : ctx.Within s.first.last previous := within_of_above (s.above_last hc)
  have hblock (p : OpRef) (hp : ctx.HasOp p) (hout : p = root ∨ ¬ctx.Within p root) :
      ctx'.blockOf p = ctx.blockOf p := by
    rw [d.blockOf p hp, if_neg, if_neg]
    · intro hm
      have hw : ctx.Within p o := within_of_above (s.above_content hc hm)
      rcases hout with rfl | hout
      · exact hne (h.grounded.antisymm ho hw)
      · exact hout (hw.trans ho)
    · rintro (rfl | rfl)
      · exact hout.elim hne fun hout => hout ho
      · rcases hout with rfl | hout
        · exact s.region_not_within_last h ho
        · exact hout (hlast.trans hprevious)
  refine .of_unmoved hblock (fun p hp hlive hout => ?_) (fun b hb => ?_) hroot
  · have hlive' : ¬ctx'.isErased p := fun he => by
      rcases (d.erased p hp).1 he with rfl | hw | he
      · exact hout ho
      · exact hout ((hw.trans hlast).trans hprevious)
      · exact hlive he
    rw [Bool.not_eq_true] at hlive hlive'
    exact d.evolves.op_eq hp (hlive'.trans hlive.symm)
      (d.evolves.operandsOf (by simp [hlive']) (d.held p (by simp [hlive'])))
      (hblock p hp (.inr hout))
  · refine d.other b ?_ ?_ ?_
    · rintro rfl
      exact hne (hb.eq_root hc (by simp [s.place_ops]) ho)
    · rintro rfl
      exact hb.2 previous (s.first.holder hc) hprevious
    · rintro rfl
      exact hb.2 o (s.second.holder hc) ho

end Context

open Context

variable {root top : OpRef} {ctx ctx' : Context}

theorem Step.around (hstep : Step root ctx ctx') (h : ctx.Sound) (hroot : ctx.HasOp root) :
    ∃ x, ctx.Surrounds root x ctx' := by
  cases hstep with
  | swap s barriers ho hne d => exact d.around h hroot ho hne
  | absorb s σ copy ho hne d => exact ⟨root, d.around h hroot ho hne⟩
  | fuse s barrier ho hne d => exact ⟨root, d.around h hroot ho hne⟩

theorem Steps.around (hsteps : Steps root ctx ctx') (h : ctx.Stable top)
    (hin : ctx.Within root top) : ∃ x, ctx.Surrounds root x ctx' := by
  have hroot := h.sound.coherent.hasOp_of_within' hin h.hasRoot
  induction hsteps with
  | refl => exact ⟨root, .refl hroot⟩
  | @tail c c' hsteps hstep ih =>
    obtain ⟨x, a⟩ := ih
    have hev := Steps.evolves hsteps
    have h₁ := (Steps.stable_around hsteps h hin).1.sound
    obtain ⟨y, a'⟩ := hstep.around h₁ (hev.hasOp hroot)
    exact a.trans h.sound hev hroot a' h₁ hstep.evolves (hstep.nested h₁)

namespace Parallel

/-- What a run at any root in a program leaves of what is around that root: all of it, but
    that a region may stand in the place of the root. The root keeps its place iff there is
    no such region. So it does if it is in no block, and if it is not a loop or a conditional
    without results. -/
theorem run_around (h : ctx.Stable top) (hin : ctx.Within root top) (maxPasses : Nat)
    {result : GreedyResult}
    (hrun : { patterns, maxPasses : Greedy }.run ctx root = .ok (ctx', result)) :
    (∃ x, ctx.Surrounds root x ctx') ∧
      (ctx.Surrounds root root ctx' ↔ ctx'.blockOf root = ctx.blockOf root) ∧
        (ctx.blockOf root = none ∨ ¬ctx.Leavable root → ctx.Surrounds root root ctx') := by
  have hsteps := steps_of_reaches_within rfl h hin (Greedy.run_reaches hrun)
  obtain ⟨h', hin'⟩ := hsteps.stable_around h hin
  obtain ⟨x, a⟩ := hsteps.around h hin
  have hkept (hblock : ctx'.blockOf root = ctx.blockOf root) : ctx.Surrounds root root ctx' := by
    suffices hx : x = root from hx ▸ a
    rcases within_iff_above.1 a.within with hx | ⟨t, ht, -⟩
    · exact hx.symm
    · obtain ⟨b, hb, -⟩ := Option.bind_eq_some_iff.1 ht
      have hx : ctx'.blockOf x = some b := a.place.trans (hblock.symm.trans hb)
      exact (h'.sound.eq_of_within_of_blockOf hb hx a.within).symm
  refine ⟨⟨x, a⟩, ⟨fun a => a.place, hkept⟩, ?_⟩
  rintro (hdetached | hl)
  · -- then the root is the whole program
    rcases within_iff_above.1 hin with rfl | ⟨t, ht, -⟩
    · exact hkept (h'.detached.trans hdetached.symm)
    · rw [above, hdetached] at ht
      cases ht
  · exact (by_contra fun hx => hl (a.region hx).2 : x = root) ▸ a

/-- A loop that launches a team in every iteration. -/
def launchLoop : String :=
  "func.func @f \x7btype = func.fn(core.nil, core.i32)\x7d \x7b
  ^bb0(%n: core.i32):
    scf.for %n, %n, %n \x7b
      ^bb1(%i: core.i32):
        omp.parallel \x7b
          omp.terminator
        \x7d
        scf.yield
    \x7d
    func.return
\x7d"

set_option maxRecDepth 100000 in
/-- A run at the loop moves it: the region takes its place in the function. -/
theorem run_around_launchLoop : ∃ top root ctx ctx', ∃ result : GreedyResult,
    Context.empty.read "f" launchLoop = (.ok top, ctx) ∧ ctx.Leavable root ∧
      { patterns, maxPasses := 47 : Greedy }.run ctx root = .ok (ctx', result) ∧
        ¬ctx.Surrounds root root ctx' ∧ ∃ x, x ≠ root ∧ ctx.Surrounds root x ctx' := by
  have hreads : Build.readsAs "f" launchLoop fun _ ctx =>
      decide (ctx.HasOp ⟨3⟩ ∧ ctx.kindOf ⟨3⟩ = .loop ∧ ctx.results ⟨3⟩ = []) &&
        (({ patterns, maxPasses := 47 : Greedy }.run ctx ⟨3⟩).toOption.any fun answer =>
          decide (answer.1.blockOf ⟨3⟩ ≠ ctx.blockOf ⟨3⟩)) :=
    Build.readsAs_ofList (by decide +kernel)
  obtain ⟨top, ctx, findings, hread, hfindings, hvalid, htest⟩ := Build.exists_of_readsAs hreads
  rw [Bool.and_eq_true, decide_eq_true_eq, Option.any_eq_true] at htest
  obtain ⟨⟨hex, hkind, hresults⟩, ⟨ctx', result⟩, hrun, hmoved⟩ := htest
  have hrun := Outcome.eq_ok_of_toOption hrun
  obtain ⟨⟨x, a⟩, hkept, -⟩ := run_around (stable_of_read hread hfindings hvalid)
    (Build.read_within hread hex) 47 hrun
  have hnot : ¬ctx.Surrounds ⟨3⟩ ⟨3⟩ ctx' := fun a => of_decide_eq_true hmoved (hkept.1 a)
  exact ⟨top, ⟨3⟩, ctx, ctx', result, hread, ⟨.inl hkind, hresults⟩, hrun, hnot, x,
    fun e => hnot (e ▸ a), a⟩

end Parallel

end Offload
