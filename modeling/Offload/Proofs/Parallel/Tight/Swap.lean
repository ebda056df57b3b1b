import Offload.Proofs.Parallel.Swap
import Offload.Proofs.Parallel.Tight

/-!
# Swapping keeps programs tight

After a swap the outer operation stands in the region, right before the last operation of
it, which may look into it. All else is nested as before, but for the region and
the outer operation, which have changed places (`Swap.Done.within_old`).
-/

namespace Offload.Context

variable {ctx ctx' : Context}

namespace Swap.Done

variable {o outer : OpRef} {s : ctx.Swap o outer} {barriers : List OpRef}

section Nesting

variable (d : s.Done barriers ctx') (h : ctx.Sound)

include d h

/-- Where an operation from before stands after the swap. -/
theorem above_old {p q : OpRef} (hp : ctx.HasOp p) (hstep : ctx'.above p = some q) :
    p = o ∧ ctx.above outer = some q ∨ p = outer ∧ q = o ∨ p ∈ s.team.contents ∧ q = outer ∨
      p ≠ o ∧ p ≠ outer ∧ ctx.above p = some q := by
  by_cases ho : p = o
  · refine .inl ⟨ho, ?_⟩
    have hplace := h.coherent.hasBlock_of_blockOf
      ((h.coherent.ops.owner_iff outer s.place).2 (by simp [s.place_ops]))
    rw [ho, above, d.blockOf_region, Option.bind_some,
      d.evolves.holder_eq h.coherent hplace] at hstep
    rw [s.above_outer h.coherent, hstep]
  by_cases houter : p = outer
  · exact .inr (.inl ⟨houter, Option.some.inj (hstep.symm.trans (houter ▸ d.above_outer h))⟩)
  by_cases hm : p ∈ s.team.contents
  · exact .inr (.inr (.inl ⟨hm, Option.some.inj (hstep.symm.trans (d.above_content h hm))⟩))
  · refine .inr (.inr (.inr ⟨ho, houter, ?_⟩))
    rwa [d.evolves.above_eq h.coherent (d.blockOf_other h hp ho houter hm)] at hstep

/-- What is nested in an operation after the swap was so before, but for the region. -/
theorem within_old {p a : OpRef} (hp : ctx.HasOp p) (ha : a ≠ o) (hw : ctx'.Within p a) :
    ctx.Within p a := by
  have hc := h.coherent
  induction hw using Relation.ReflTransGen.head_induction_on with
  | refl => exact .refl a
  | @head p q hstep hq ih =>
    rcases d.above_old h hp hstep with ⟨rfl, habove⟩ | ⟨rfl, rfl⟩ | ⟨hm, rfl⟩ | ⟨-, -, habove⟩
    · exact ((within_of_above (s.above_region hc)).trans (within_of_above habove)).trans
        (ih (hc.hasOp_of_above habove).2)
    · obtain ⟨t, ht, hw⟩ :=
        (within_iff_above.1 (ih s.team.hasOp)).resolve_left ha.symm
      obtain rfl := Option.some.inj ((s.above_region hc).symm.trans ht)
      exact hw
    · exact ((within_of_above (above_content_before hc hm)).trans
        (within_of_above (s.above_region hc))).trans (ih (hc.hasOp_of_above (s.above_region hc)).2)
    · exact (within_of_above habove).trans (ih (hc.hasOp_of_above habove).2)

/-- The region holds what the outer operation held. -/
theorem within_region_iff {p : OpRef} (hp : ctx.HasOp p) :
    ctx'.Within p o ↔ ctx.Within p outer := by
  have hc := h.coherent
  constructor
  · intro hw
    rcases within_iff_below.1 hw with rfl | ⟨c, habove, hpc⟩
    · exact within_of_above (s.above_region hc)
    -- the outer operation and the last one are all that is in the region
    obtain ⟨b, -, hholder, hm⟩ :=
      d.evolves.listed_of_above hc d.sound.coherent s.team.hasOp habove
    rw [s.team.eq_body hc hholder, d.body] at hm
    rcases List.mem_pair.1 hm with rfl | rfl
    · exact d.within_old h hp (s.ne h).symm hpc
    · have hlast := above_last (s := s) hc
      have hne : s.team.last ≠ o := fun e => h.grounded.not_within_above hlast (by
        rw [e]
        exact .refl o)
      exact ((d.within_old h hp hne hpc).trans (within_of_above hlast)).trans
        (within_of_above (s.above_region hc))
  · intro hw
    induction hw using Relation.ReflTransGen.head_induction_on with
    | refl => exact within_of_above (d.above_outer h)
    | @head p q hstep hq ih =>
      by_cases ho : p = o
      · rw [ho]
        exact .refl o
      by_cases houter : p = outer
      · rw [houter]
        exact within_of_above (d.above_outer h)
      by_cases hm : p ∈ s.team.contents
      · exact (within_of_above (d.above_content h hm)).trans (within_of_above (d.above_outer h))
      · exact (within_of_above (d.above_other h ho houter hm hstep)).trans
          (ih (hc.hasOp_of_above hstep).2)

end Nesting

section Tight

variable {root : OpRef} (d : s.Done barriers ctx') (h : ctx.Tight root)

include h

theorem outer_ne_root (s : ctx.Swap o outer) : outer ≠ root := by
  rintro rfl
  exact s.kind.elim h.root_ne_loop h.root_ne_conditional

theorem ne_of_mem_heldBy (s : ctx.Swap o outer) {q : OpRef} {v : ValueRef}
    (hv : v ∈ ctx.heldBy q) : q ≠ o := by
  rintro rfl
  have := (h.of_mem_heldBy hv).2.1
  rw [s.team.operands] at this
  cases this

include d

theorem keptIn {x : OpRef} {v : ValueRef} (hx : x ≠ outer) (hv : ctx.KeptIn x v) :
    ctx'.KeptIn x v := fun q hq => d.within h.sound (hv q (d.held ▸ hq)) hx

/-- What holds a value and is nested in the operation that defines it, at the time of the
    swap: an operation from before does. -/
theorem definedWithin_old {q x : OpRef} {v : ValueRef} (hv : v ∈ ctx'.heldBy q)
    (hx : ctx'.DefinedWithin x v) :
    ∃ p, ctx.definer v = some p ∧ ctx.HasOp p ∧ ctx'.Within p x := by
  obtain ⟨p, hp, hw⟩ := hx
  rw [d.evolves.definer_eq h.sound.coherent (h.index_lt (d.held ▸ hv))] at hp
  exact ⟨p, hp, h.sound.coherent.hasOp_of_definer hp, hw⟩

/-- In the place of the outer operation stands the region. -/
theorem place_map : ctx'.opsOf s.place =
    (ctx.opsOf s.place).map fun p => if p = outer then o else p := by
  have hnodup := h.sound.coherent.ops.nodup s.place
  rw [s.place_ops, List.nodup_append, List.nodup_cons] at hnodup
  have hkeep (l : List OpRef) (hl : outer ∉ l) : l.map (fun p => if p = outer then o else p) = l :=
    (List.map_congr_left fun p hp => if_neg fun e : p = outer => hl (e ▸ hp)).trans (List.map_id l)
  rw [d.place, s.place_ops, List.map_append, List.map_cons, if_pos rfl,
    hkeep _ fun hm => hnodup.2.2 _ hm _ List.mem_cons_self rfl, hkeep _ hnodup.2.1.1]

/-- What is defined earlier still is, although what is last in the region may look into the
    outer operation to find it. -/
theorem earlier {q : OpRef} {v : ValueRef} (hroot : ctx.Within o root) (hq : v ∈ ctx.heldBy q)
    (hv : ctx.Earlier q v) : ctx'.Earlier q v := by
  have hs := h.sound
  have hc := hs.coherent
  have hqo : q ≠ o := ne_of_mem_heldBy h s hq
  have hqex := hc.hasOp_of_within' (h.of_mem_heldBy hq).1 h.hasRoot
  have hdefined {p : OpRef} (hp : p ≠ outer) (hpv : ctx.DefinedWithin p v) :
      ctx'.DefinedWithin p v := by
    obtain ⟨x, hx, hw⟩ := hpv
    exact ⟨x, d.evolves.definer hc hx, d.within hs hw hp⟩
  have hregion (hpv : ctx.DefinedWithin outer v) : ctx'.DefinedWithin o v := by
    obtain ⟨x, hx, hw⟩ := hpv
    exact ⟨x, d.evolves.definer hc hx, (d.within_region_iff hs (hc.hasOp_of_definer hx)).2 hw⟩
  have hargs {b : BlockRef} {p : OpRef} (hp : p ∈ ctx.opsOf b) (hpv : v ∈ ctx.args b) :
      v ∈ ctx'.args b := by
    rwa [d.evolves.args (hc.hasBlock_of_blockOf ((hc.ops.owner_iff p b).2 hp))]
  have hplace_mem : outer ∈ ctx.opsOf s.place := by simp [s.place_ops]
  have hlast_mem : s.team.last ∈ ctx.opsOf s.team.body := by simp [s.team.ops]
  have hfinal_mem : s.final ∈ ctx.opsOf s.inner := by simp [s.inner_ops]
  have hcontent {p : OpRef} (hp : p ∈ s.team.contents) : p ≠ outer := by
    rintro rfl
    exact hc.not_mem_of_ne hplace_mem (s.body_ne_place hs) (by simp [s.team.ops, hp])
  have hlast : s.team.last ≠ outer := fun e => by
    rw [e] at hlast_mem
    exact hc.not_mem_of_ne hplace_mem (s.body_ne_place hs) hlast_mem
  have hfinal : s.final ≠ outer := fun e => by
    rw [e] at hfinal_mem
    exact hc.not_mem_of_ne hplace_mem (s.place_ne_inner hs).symm hfinal_mem
  have hfinal_ne : s.final ≠ o := by
    intro e
    have hnodup := hc.ops.nodup s.inner
    rw [s.inner_ops, e] at hnodup
    simp at hnodup
  have hfinal_content : s.final ∉ s.team.contents := fun hm =>
    hc.not_mem_of_ne hfinal_mem (s.body_ne_inner hs) (by simp [s.team.ops, hm])
  have hfinal_last : s.final ≠ s.team.last := fun e =>
    hc.not_mem_of_ne hfinal_mem (s.body_ne_inner hs) (e ▸ hlast_mem)
  obtain ⟨w, hqw, b, before, after, hb, hv⟩ := hv
  have hw : w ∈ ctx.opsOf b := by simp [hb]
  by_cases hplace : b = s.place
  · -- beside the outer operation, or in it
    subst hplace
    by_cases houter : w = outer
    · subst houter
      obtain ⟨rfl, rfl⟩ := Position.split_unique (hb ▸ hc.ops.nodup s.place)
        (hb.symm.trans s.place_ops)
      refine ⟨o, (d.within_region_iff hs hqex).2 hqw, s.place, _, _, d.place,
        hv.imp (hargs hw) fun ⟨p, hp, hpv⟩ => ⟨p, hp, hdefined ?_ hpv⟩⟩
      rintro rfl
      have hnodup := hc.ops.nodup s.place
      rw [hb, List.nodup_append] at hnodup
      exact hnodup.2.2 _ hp _ List.mem_cons_self rfl
    · have hsplit := d.place_map h
      rw [hb, List.map_append, List.map_cons, if_neg houter] at hsplit
      refine ⟨w, d.within hs hqw houter, s.place, _, _, hsplit,
        hv.imp (hargs hw) fun ⟨p, hp, hpv⟩ => ⟨_, List.mem_map_of_mem hp, ?_⟩⟩
      split
      · rename_i hp
        exact hregion (hp ▸ hpv)
      · rename_i hp
        exact hdefined hp hpv
  by_cases hinner : b = s.inner
  · subst hinner
    rw [s.inner_ops] at hb
    cases before with
    | nil =>
      -- in the region
      obtain ⟨rfl, -⟩ := List.cons.inj hb
      have hv : v ∈ ctx.args s.inner := hv.resolve_right (by simp)
      obtain ⟨c, hc', hqc⟩ := (within_iff_below.1 hqw).resolve_left hqo
      have hcm := s.team.mem_of_above hc hc'
      rw [s.team.ops, List.mem_append, List.mem_singleton] at hcm
      rcases hcm with hcm | rfl
      · obtain ⟨c₁, c₂, hsplit⟩ := List.append_of_mem hcm
        refine ⟨c, d.within hs hqc (hcontent hcm), s.inner, c₁, c₂ ++ (barriers ++ [s.final]), ?_,
          .inl (hargs hw hv)⟩
        rw [d.inner, hsplit, List.append_assoc, List.cons_append]
      · refine ⟨s.team.last, d.within hs hqc hlast, s.team.body, [outer], [], d.body,
          .inr ⟨outer, List.mem_cons_self, outer, ?_, .refl outer⟩⟩
        exact d.evolves.definer hc ((definer_of_mem_args hc hv).trans s.inner_holder)
    | cons p before =>
      -- in the last operation of the block
      obtain ⟨rfl, hrest⟩ := List.cons.inj hb
      obtain ⟨rfl, rfl⟩ : before = [] ∧ w = s.final := by
        cases before with
        | nil => exact ⟨rfl, (List.cons.inj hrest).1.symm⟩
        | cons p before => simp at hrest
      have hinner' : ctx'.opsOf s.inner = (s.team.contents ++ barriers) ++ s.final :: [] := by
        rw [d.inner, List.append_assoc]
      have hqfinal : ctx'.Within q s.final := d.within hs hqw hfinal
      rcases hv with hv | ⟨p, hp, hpv⟩
      · exact ⟨s.final, hqfinal, s.inner, _, _, hinner', .inl (hargs hw hv)⟩
      rw [List.mem_singleton.1 hp] at hpv
      rcases s.team.definedInBlock hc hpv with hv | ⟨c, hcm, hcv⟩
      · refine ⟨outer, hqfinal.trans (within_of_above ?_), s.team.body, [], _, d.body,
          .inl (hargs hlast_mem hv)⟩
        exact d.above_other hs hfinal_ne hfinal hfinal_content
          ((hc.above_of_mem hw).trans s.inner_holder)
      rw [s.team.ops, List.mem_append, List.mem_singleton] at hcm
      rcases hcm with hcm | rfl
      · exact ⟨s.final, hqfinal, s.inner, _, _, hinner',
          .inr ⟨c, List.mem_append_left _ hcm, hdefined (hcontent hcm) hcv⟩⟩
      · -- what is last in the region is not looked into
        have hclosed := h.closed s.team.body o s.team.last (s.team.holder hc) hroot s.team.kind
          (by rw [s.team.ops, List.getLast?_concat]) v hcv q hq
        have habove := (hc.above_of_mem hw).trans s.inner_holder
        rcases hqw.total hclosed with hwl | hwl
        · obtain ⟨t, ht, htl⟩ := (within_iff_above.1 hwl).resolve_left hfinal_last
          obtain rfl := Option.some.inj (habove.symm.trans ht)
          exact absurd (htl.trans (within_of_above (above_last hc))) (s.outer_not_within hs)
        · obtain ⟨t, ht, htf⟩ := (within_iff_above.1 hwl).resolve_left fun e => hfinal_last e.symm
          obtain rfl := Option.some.inj ((above_last (s := s) hc).symm.trans ht)
          exact absurd (hs.eq_of_within_of_blockOf (b := s.inner)
            ((hc.ops.owner_iff _ _).2 (by simp [s.inner_ops])) ((hc.ops.owner_iff _ _).2 hw) htf)
            hfinal_ne.symm
  by_cases hbody : b = s.team.body
  · subst hbody
    rw [s.team.ops] at hb
    rcases List.eq_nil_or_concat after with rfl | ⟨after, z, rfl⟩
    · obtain ⟨rfl, e⟩ := List.append_inj' hb rfl
      obtain rfl := (List.cons.inj e).1
      refine ⟨s.team.last, d.within hs hqw hlast, s.team.body, [outer], [], d.body,
        hv.imp (hargs hw) fun ⟨p, hp, x, hx, hxp⟩ => ⟨outer, List.mem_cons_self, x,
          d.evolves.definer hc hx, ?_⟩⟩
      exact (d.within hs hxp (hcontent hp)).trans (within_of_above (d.above_content hs hp))
    · have hsplit : s.team.contents = before ++ w :: after := by
        rw [List.concat_eq_append, ← List.cons_append, ← List.append_assoc] at hb
        exact (List.append_inj' hb rfl).1
      have hwm : w ∈ s.team.contents := by simp [hsplit]
      have hqw' := d.within hs hqw (hcontent hwm)
      rcases hv with hv | ⟨p, hp, hpv⟩
      · exact ⟨outer, hqw'.trans (within_of_above (d.above_content hs hwm)), s.team.body, [], _,
          d.body, .inl (hargs hw hv)⟩
      · refine ⟨w, hqw', s.inner, before, after ++ (barriers ++ [s.final]), ?_,
          .inr ⟨p, hp, hdefined (hcontent (by simp [hsplit, hp])) hpv⟩⟩
        rw [d.inner, hsplit, List.append_assoc, List.cons_append]
  · have hwouter : w ≠ outer := fun e => hplace (hc.ops.owner_unique (e ▸ hw) (by simp [s.place_ops]))
    have hops := d.other b hplace hbody hinner
    refine ⟨w, d.within hs hqw hwouter, b, before, after, hops.trans hb,
      hv.imp (hargs hw) fun ⟨p, hp, hpv⟩ => ⟨p, hp, hdefined ?_ hpv⟩⟩
    rintro rfl
    exact hplace (hc.ops.owner_unique (c := p) (by simp [hb, hp]) (by simp [s.place_ops]))

/-! ### What stays inside -/

theorem keptIn_of_definedWithin {x q : OpRef} {v : ValueRef} (ho : x ≠ o) (houter : x ≠ outer)
    (hx : ctx.DefinedWithin x v → ctx.KeptIn x v) (hq : v ∈ ctx'.heldBy q)
    (hv : ctx'.DefinedWithin x v) : ctx'.Within q x := by
  obtain ⟨p, hp, hex, hw⟩ := d.definedWithin_old h hq hv
  exact d.keptIn h houter (hx ⟨p, hp, d.within_old h.sound hex ho hw⟩) q hq

theorem sealed {x : OpRef} (hex : ctx.HasOp x) (ho : x ≠ o) (houter : x ≠ outer)
    (hx : ctx.Sealed x) : ctx'.Sealed x := fun v hv hres q hq =>
  d.keptIn_of_definedWithin h ho houter
    (fun hv => hx v hv (by rwa [d.evolves.results hex] at hres)) hq hv

/-- The region stands where the outer operation stood, and holds what it held. -/
theorem sealed_region (hx : ctx.Sealed outer) : ctx'.Sealed o := by
  have hc := h.sound.coherent
  intro v hv _ q hq
  obtain ⟨p, hp, hex, hw⟩ := d.definedWithin_old h hq hv
  have hdefined : ctx.DefinedWithin outer v := ⟨p, hp, (d.within_region_iff h.sound hex).1 hw⟩
  rw [d.held] at hq
  have hqex := hc.hasOp_of_within' (h.of_mem_heldBy hq).1 h.hasRoot
  exact (d.within_region_iff h.sound hqex).2 (hx v hdefined (by simp [s.results]) q hq)

theorem backed_region (hx : ctx.Backed outer) : ctx'.Backed o := by
  have hc := h.sound.coherent
  obtain ⟨b, before, next, after, hb, hnext⟩ := hx
  obtain rfl : b = s.place :=
    hc.ops.owner_unique (c := outer) (by simp [hb]) (by simp [s.place_ops])
  obtain ⟨rfl, hafter⟩ := Position.split_unique (hb ▸ hc.ops.nodup s.place)
    (hb.symm.trans s.place_ops)
  have hex : ctx.HasOp next := hc.hasOp_of_mem (b := s.place) (by simp [hb])
  refine ⟨s.place, s.before, next, after, by rw [d.place, ← hafter], ?_⟩
  rwa [d.evolves.kindOf hex]

/-- What is last in the region comes right after the outer operation. -/
theorem backed_outer : ctx'.Backed outer := by
  have hex : ctx.HasOp s.team.last :=
    h.sound.coherent.hasOp_of_mem (b := s.team.body) (by simp [s.team.ops])
  refine ⟨s.team.body, [], s.team.last, [], d.body, .inr ⟨rfl, ?_⟩⟩
  rw [d.evolves.kindOf hex]
  exact s.team.ends

theorem backed {x : OpRef} (hroot : ctx.Within o root) (ho : x ≠ o) (houter : x ≠ outer)
    (hx : ctx.Backed x) : ctx'.Backed x := by
  have hs := h.sound
  have hc := hs.coherent
  obtain ⟨b, before, next, after, hb, hnext⟩ := hx
  have hnext_mem : next ∈ ctx.opsOf b := by simp [hb]
  have hkind : ctx'.kindOf next = ctx.kindOf next := d.evolves.kindOf (hc.hasOp_of_mem hnext_mem)
  rw [← hkind] at hnext
  by_cases hplace : b = s.place
  · subst hplace
    have hne : next ≠ outer := by
      rintro rfl
      rw [hkind] at hnext
      rcases hnext with hbarrier | ⟨-, hterm⟩
      · rcases s.kind with hk | hk <;> rw [hk] at hbarrier <;> exact absurd hbarrier (by decide)
      · exact not_isTerminator s hterm
    have hsplit := d.place_map h
    rw [hb, List.map_append, List.map_cons, List.map_cons, if_neg houter, if_neg hne] at hsplit
    exact ⟨s.place, _, next, _, hsplit, hnext.imp_right fun hn => ⟨by rw [hn.1]; rfl, hn.2⟩⟩
  by_cases hinner : b = s.inner
  · subst hinner
    rw [s.inner_ops] at hb
    rcases before with _ | ⟨p, before⟩
    · exact absurd (List.cons.inj hb).1.symm ho
    · have := congrArg List.length hb
      simp at this
      omega
  by_cases hbody : b = s.team.body
  · subst hbody
    rw [s.team.ops] at hb
    rcases List.eq_nil_or_concat after with rfl | ⟨after, z, rfl⟩
    · -- a barrier or the terminator of the other block comes next now
      have hsplit : s.team.contents = before ++ [x] := by
        have e : s.team.contents ++ [s.team.last] = (before ++ [x]) ++ [next] := by
          rw [hb, List.append_assoc]
          rfl
        exact (List.append_inj' e rfl).1
      have hinner' : ctx'.opsOf s.inner = before ++ x :: (barriers ++ [s.final]) := by
        rw [d.inner, hsplit, List.append_assoc]
        rfl
      cases hbarriers : barriers with
      | nil =>
        refine ⟨s.inner, before, s.final, [], by rw [hinner', hbarriers]; rfl, .inr ⟨rfl, ?_⟩⟩
        obtain ⟨r, hr, hfirst⟩ := s.inner_first
        obtain ⟨last, hlast, hterm⟩ := h.ended outer
          (h.within_root hroot (within_of_above (s.above_region hc)))
          (by rcases s.kind with hk | hk <;> rw [hk] <;> decide) r (List.mem_of_getElem? hr) s.inner
          (List.mem_of_head? hfirst)
        rw [s.inner_ops] at hlast
        obtain rfl := Option.some.inj hlast
        rwa [d.evolves.kindOf (hc.hasOp_of_mem (b := s.inner) (by simp [s.inner_ops]))]
      | cons p rest =>
        refine ⟨s.inner, before, p, rest ++ [s.final], by rw [hinner', hbarriers]; rfl, .inl ?_⟩
        exact (d.barriers p (by rw [hbarriers]; exact List.mem_cons_self)).2.kind
    · have hsplit : s.team.contents = before ++ x :: next :: after := by
        rw [List.concat_eq_append, ← List.cons_append, ← List.cons_append,
          ← List.append_assoc] at hb
        exact (List.append_inj' hb rfl).1
      refine ⟨s.inner, before, next, after ++ (barriers ++ [s.final]), ?_,
        .inl (hnext.resolve_right fun hn => by simp at hn)⟩
      rw [d.inner, hsplit, List.append_assoc, List.cons_append, List.cons_append]
  · exact ⟨b, before, next, after, (d.other b hplace hbody hinner).trans hb, hnext⟩

theorem sealed_or_backed (hroot : ctx.Within o root) {x : OpRef} (hx : ctx.Within x root) :
    ctx'.Sealed x ∨ ctx'.Backed x := by
  have hc := h.sound.coherent
  by_cases ho : x = o
  · rw [ho]
    exact (h.sealed_or_backed outer (h.within_root hroot (within_of_above (s.above_region hc)))).imp
      (d.sealed_region h) (d.backed_region h)
  by_cases houter : x = outer
  · rw [houter]
    exact .inr (d.backed_outer h)
  · exact (h.sealed_or_backed x hx).imp
      (d.sealed h (hc.hasOp_of_within' hx h.hasRoot) ho houter) (d.backed h hroot ho houter)

/-- Each region ends as before, so what is defined there is used there alone. -/
theorem closed (hroot : ctx.Within o root) (hne : o ≠ root) {b : BlockRef} {p last : OpRef}
    (hb : ctx'.holder b = some p) (hp : ctx'.Within p root) (hkind : ctx'.kindOf p = .parallel)
    (hlast : (ctx'.opsOf b).getLast? = some last) : ctx'.Closed last := by
  have hs := h.sound
  have hc := hs.coherent
  have hp' : ctx.Within p root := (d.within_before hs hroot hne hp).resolve_left fun hm => by
    rw [(d.barriers p hm).2.kind] at hkind
    exact absurd hkind (by decide)
  have hex := hc.hasOp_of_within' hp' h.hasRoot
  rw [d.evolves.kindOf hex] at hkind
  obtain ⟨-, hb'⟩ := d.evolves.holder_old hc d.sound.coherent hex hb
  obtain ⟨team⟩ := h.nonempty_team hp' hkind
  obtain rfl := team.eq_body hc hb'
  have hlast' : (ctx.opsOf team.body).getLast? = some team.last := by
    rw [team.ops, List.getLast?_concat]
  have hterm := team.ends
  have ho : team.last ≠ o := fun e => by
    rw [e, s.team.kind] at hterm
    exact absurd hterm (by decide)
  have houter : team.last ≠ outer := ne_of_isTerminator s hterm
  obtain rfl := Option.some.inj ((d.getLast? hlast' houter).symm.trans hlast)
  exact fun v hv q hq => d.keptIn_of_definedWithin h ho houter
    (h.closed team.body p team.last hb' hp' hkind hlast' v) hq hv

theorem tight (hroot : ctx.Within o root) (hne : o ≠ root) : ctx'.Tight root := by
  have hs := h.sound
  have hkind : ctx'.kindOf root = ctx.kindOf root := d.evolves.kindOf h.hasRoot
  have hstable := d.stable h.toStable hroot hne
  refine ⟨hstable, hkind ▸ h.root_ne_loop, hkind ▸ h.root_ne_conditional, fun q hq => ?_,
    fun q hq v hv => ?_, fun x hx => ?_, fun b p last hb hp hk hlast =>
      d.closed h hroot hne hb hp hk hlast⟩
  · exact d.within hs (h.holders q (d.held ▸ hq)) (outer_ne_root h s).symm
  · rcases d.within_before hs hroot hne hq with hm | hq'
    · rw [(d.barriers q hm).2.operands] at hv
      cases hv
    · have hheld : v ∈ ctx.heldBy q := by
        rwa [← d.held, heldBy_eq, if_neg (hstable.live q hq)]
      exact (h.of_mem_heldBy hheld).2.2.imp (d.earlier h hroot hheld)
        (d.evolves.foreign hs.coherent)
  · rcases d.within_before hs hroot hne hx with hm | hx'
    · -- nothing is defined in a barrier
      have hbare := d.barriers x hm
      refine .inl fun v hv _ q hq => ?_
      obtain ⟨p, -, hex, hw⟩ := d.definedWithin_old h hq hv
      exact absurd hw (hbare.2.not_within d.sound.coherent fun e => hbare.1 (e ▸ hex))
    · exact d.sealed_or_backed h hroot hx'

end Tight

end Swap.Done

end Offload.Context
