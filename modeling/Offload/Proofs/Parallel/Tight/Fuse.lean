import Offload.Proofs.Parallel.Fuse
import Offload.Proofs.Parallel.Tight

/-!
# Fusing keeps programs tight

What was last in the first region is gone, and with it all that was defined there. It is
not missed, for it was used there alone. What was in the second region has all in
front of it that the first one had (`Fuse.Done.earlier`).
-/

namespace Offload.Context

variable {ctx ctx' : Context}

namespace Fuse.Done

variable {o previous barrier : OpRef} {s : ctx.Fuse o previous}

section Nesting

variable (h : ctx.Sound)

include h

theorem not_within_last_of_within_region (s : ctx.Fuse o previous) {p : OpRef}
    (hp : ctx.Within p o) : ¬ctx.Within p s.first.last := fun hw => by
  rcases hp.total hw with hw | hw
  · exact s.region_not_within_last h hw
  · rcases within_iff_above.1 hw with e | ⟨a, ha, hw⟩
    · exact s.region_not_within_last h (within_iff_above.2 (.inl e.symm))
    · obtain rfl := Option.some.inj ((s.above_last h.coherent).symm.trans ha)
      exact s.ne h.coherent (h.eq_of_within_of_blockOf (s.blockOf_previous h.coherent)
        (s.blockOf_region h.coherent) hw).symm

variable (d : s.Done barrier ctx')

include d

/-- Where an operation from before stands afterwards. -/
theorem above_old {p q : OpRef} (hp : ctx.HasOp p) (hstep : ctx'.above p = some q) :
    ctx.above p = some o ∧ q = previous ∨ ctx.above p = some q := by
  have ho : p ≠ o := by
    rintro rfl
    rw [d.above_region] at hstep
    cases hstep
  have hlast : p ≠ s.first.last := by
    rintro rfl
    rw [d.above_last h.coherent] at hstep
    cases hstep
  by_cases habove : ctx.above p = some o
  · exact .inl ⟨habove, Option.some.inj (hstep.symm.trans (d.above_content h ho hlast habove))⟩
  · exact .inr ((d.above_other h hp ho hlast habove).symm.trans hstep)

/-- Only the first region has something in it that was not in it before: what was in the
    second one. -/
theorem within_old {p a : OpRef} (hp : ctx.HasOp p) (hw : ctx'.Within p a) :
    ctx.Within p a ∨ a = previous ∧ ctx.Within p o := by
  have hc := h.coherent
  induction hw using Relation.ReflTransGen.head_induction_on with
  | refl => exact .inl (.refl a)
  | @head p q hstep _ ih =>
    rcases d.above_old h hp hstep with ⟨habove, rfl⟩ | habove
    · rcases ih s.first.hasOp with hw | ⟨e, -⟩
      · rcases within_iff_above.1 hw with e | ⟨t, ht, hw⟩
        · exact .inr ⟨e.symm, within_of_above habove⟩
        · rw [s.above_previous hc, ← s.above_region hc] at ht
          exact .inl ((within_of_above habove).trans ((within_of_above ht).trans hw))
      · exact .inr ⟨e, within_of_above habove⟩
    · exact (ih (hc.hasOp_of_above habove).2).imp (within_of_above habove).trans fun hw =>
        ⟨hw.1, (within_of_above habove).trans hw.2⟩

/-- All that was in the second region is in the first one. -/
theorem within_region {p : OpRef} (hp : ctx.Within p o) (hne : p ≠ o) :
    ctx'.Within p previous := by
  obtain ⟨c, hc, hpc⟩ := (within_iff_below.1 hp).resolve_left hne
  have hco : c ≠ o := by
    rintro rfl
    exact h.grounded.not_within_above hc (.refl c)
  have hlast := not_within_last_of_within_region h s (within_of_above hc)
  exact (d.within h hpc hne (not_within_last_of_within_region h s hp) hco).trans
    (within_of_above (d.above_content h hco (fun e => hlast (e ▸ .refl _)) hc))

end Nesting

section Tight

variable {root : OpRef} (h : ctx.Tight root) (d : s.Done barrier ctx')

include h

theorem within_root_previous (s : ctx.Fuse o previous) (hroot : ctx.Within o root)
    (hne : o ≠ root) : ctx.Within previous root := by
  have hc := h.sound.coherent
  obtain ⟨t, ht, hw⟩ := (within_iff_above.1 hroot).resolve_left hne
  rw [s.above_region hc, ← s.above_previous hc] at ht
  exact (within_of_above ht).trans hw

include d

/-- What holds a value did so before, is not erased, and the value is not defined in what
    is. -/
theorem held_old (hroot : ctx.Within o root) (hne : o ≠ root) {q : OpRef} {v : ValueRef}
    (hq : v ∈ ctx'.heldBy q) :
    v ∈ ctx.heldBy q ∧ q ≠ o ∧ ¬ctx.Within q s.first.last ∧
      ¬ctx.DefinedWithin s.first.last v := by
  have hc := h.sound.coherent
  have hlive : ¬ctx'.isErased q := fun he => by
    rw [heldBy_eq, if_pos he] at hq
    cases hq
  rw [d.held q hlive] at hq
  have hex := hc.hasOp_of_within' (h.of_mem_heldBy hq).1 h.hasRoot
  rw [d.erased q hex] at hlive
  refine ⟨hq, fun e => hlive (.inl e), fun hw => hlive (.inr (.inl hw)), fun hv => ?_⟩
  refine hlive (.inr (.inl (h.closed s.first.body previous s.first.last (s.first.holder hc)
    (within_root_previous h s hroot hne) s.first.kind ?_ v hv q hq)))
  rw [s.first.ops, List.getLast?_concat]

/-- The operation that defines what is held is an old one. -/
theorem definedWithin_old (hroot : ctx.Within o root) (hne : o ≠ root) {q x : OpRef}
    {v : ValueRef} (hv : v ∈ ctx'.heldBy q) (hx : ctx'.DefinedWithin x v) :
    ∃ p, ctx.definer v = some p ∧ ctx.HasOp p ∧ ctx'.Within p x := by
  obtain ⟨p, hp, hw⟩ := hx
  rw [d.evolves.definer_eq h.sound.coherent
    (h.index_lt (d.held_old h hroot hne hv).1)] at hp
  exact ⟨p, hp, h.sound.coherent.hasOp_of_definer hp, hw⟩

/-! ### What is earlier -/

omit d in
/-- The second region has no values of its own but the arguments of its body. -/
theorem ne_of_definer (s : ctx.Fuse o previous) {x : OpRef} {v : ValueRef}
    (hargs : v ∉ ctx.args s.second.body) (hx : ctx.definer v = some x) : x ≠ o := by
  have hc := h.sound.coherent
  rintro rfl
  rw [definer] at hx
  split at hx
  · rename_i p n hsource
    obtain rfl := Option.some.inj hx
    have hres := (mem_results_iff hc).2 ⟨n, hsource⟩
    rw [s.second.results] at hres
    cases hres
  · rename_i b n hsource
    obtain rfl := s.second.eq_body hc hx
    exact hargs ((mem_args_iff hc).2 ⟨n, hsource⟩)
  · cases hx

/-- What was defined in an operation still is, and what was defined in the second region is
    defined in the first one. -/
theorem definedWithin {p : OpRef} {v : ValueRef} (hargs : v ∉ ctx.args s.second.body)
    (hlast : ¬ctx.DefinedWithin s.first.last v) (hv : ctx.DefinedWithin p v) :
    ctx'.DefinedWithin (if p = o then previous else p) v := by
  obtain ⟨x, hx, hw⟩ := hv
  have hne := ne_of_definer h s hargs hx
  refine ⟨x, d.evolves.definer h.sound.coherent hx, ?_⟩
  split
  · rename_i hp
    exact d.within_region h.sound (hp ▸ hw) hne
  · rename_i hp
    exact d.within h.sound hw hne (fun hw => hlast ⟨x, hx, hw⟩) hp

/-- What stands right before the second region stays before what is behind the region. -/
theorem mem_filter_place {p w : OpRef} {before after : List OpRef}
    (hplace : ctx.opsOf s.place = before ++ w :: after) (hp : p ∈ before) :
    (if p = o then previous else p) ∈ before.filter (· ≠ o) := by
  have hc := h.sound.coherent
  split
  · rename_i hpo
    subst hpo
    obtain ⟨l, l', rfl⟩ := List.append_of_mem hp
    have hsplit : ctx.opsOf s.place = l ++ p :: (l' ++ w :: after) := by
      rw [hplace, List.append_assoc, List.cons_append]
    have hsplit' : ctx.opsOf s.place = (s.before ++ [previous]) ++ p :: s.after := by
      rw [s.place_ops, List.append_assoc]
      rfl
    obtain ⟨rfl, -⟩ := Position.split_unique (hsplit ▸ hc.ops.nodup _) (hsplit.symm.trans hsplit')
    exact List.mem_filter.2 ⟨by simp, by simpa using (s.ne hc).symm⟩
  · rename_i hpo
    exact List.mem_filter.2 ⟨hp, by simpa using hpo⟩

/-- What was in the second region has what it had there in front of it, and what the first one
    had. -/
theorem earlier_content {q c : OpRef} {v : ValueRef} (hqc : ctx'.Within q c) {before after : List OpRef}
    (hsplit : ctx.opsOf s.second.body = before ++ c :: after)
    (hv : v ∈ ctx.args s.first.body ∨
      ∃ p ∈ s.first.contents ++ barrier :: before, ctx'.DefinedWithin p v) :
    ctx'.Earlier q v := by
  refine ⟨c, hqc, s.first.body, s.first.contents ++ barrier :: before, after, ?_,
    hv.imp_left fun hv => ?_⟩
  · rw [d.first, hsplit, List.append_assoc, List.cons_append]
  · rwa [d.evolves.args (h.sound.coherent.hasBlock_of_holder (s.first.holder h.sound.coherent))]

/-- What is defined earlier still is. -/
theorem earlier {q : OpRef} {v : ValueRef} (hq : q ≠ o) (hqlast : ¬ctx.Within q s.first.last)
    (hlast : ¬ctx.DefinedWithin s.first.last v) (hargs : v ∉ ctx.args s.second.body)
    (hv : ctx.Earlier q v) : ctx'.Earlier q v := by
  have hs := h.sound
  have hc := hs.coherent
  obtain ⟨w, hqw, b, before, after, hb, hv⟩ := hv
  have hw : w ∈ ctx.opsOf b := by simp [hb]
  have hkeep (hv : v ∈ ctx.args b) : v ∈ ctx'.args b := by
    rwa [d.evolves.args (hc.hasBlock_of_blockOf ((hc.ops.owner_iff w b).2 hw))]
  have hdefined {p : OpRef} (hp : ctx.DefinedWithin p v) := d.definedWithin h hargs hlast hp
  by_cases hwo : w = o
  · -- the second region itself has the first one in front of it
    subst hwo
    have hsplit : ctx.opsOf s.place = (s.before ++ [previous]) ++ w :: s.after := by
      rw [s.place_ops, List.append_assoc]
      rfl
    obtain rfl : b = s.place := hc.ops.owner_unique hw (by simp [s.place_ops])
    obtain ⟨rfl, rfl⟩ := Position.split_unique (hb ▸ hc.ops.nodup s.place) (hb.symm.trans hsplit)
    have hqprevious := d.within_region hs hqw hq
    rcases hv with hv | ⟨p, hp, hpv⟩
    · exact ⟨previous, hqprevious, s.place, s.before, s.after, d.place, .inl (hkeep hv)⟩
    rcases List.mem_append.1 hp with hp | hp
    · have hpw : p ≠ w := by
        rintro rfl
        have hnodup := hc.ops.nodup s.place
        rw [hb, List.nodup_append] at hnodup
        exact hnodup.2.2 p (List.mem_append_left _ hp) p List.mem_cons_self rfl
      have hpv' := hdefined hpv
      rw [if_neg hpw] at hpv'
      exact ⟨previous, hqprevious, s.place, s.before, s.after, d.place, .inr ⟨p, hp, hpv'⟩⟩
    · rw [List.mem_singleton.1 hp] at hpv
      obtain ⟨c, habove, hqc⟩ := (within_iff_below.1 hqw).resolve_left hq
      have hcm := s.second.mem_of_above hc habove
      have hcne : c ≠ w := by
        rintro rfl
        exact hs.grounded.not_within_above habove (.refl c)
      obtain ⟨c₁, c₂, hbody⟩ := List.append_of_mem hcm
      refine d.earlier_content h (d.within hs hqc hq hqlast hcne) hbody ?_
      refine (s.first.definedInBlock hc hpv).imp_right fun ⟨x, hx, hxv⟩ => ⟨x, ?_, ?_⟩
      · rw [s.first.ops, List.mem_append, List.mem_singleton] at hx
        exact List.mem_append_left _ (hx.resolve_right fun e => hlast (e ▸ hxv))
      · have hxw : x ≠ w := by
          rintro rfl
          exact s.first_ne_place hs (hc.ops.owner_unique hx hw)
        have hxv' := hdefined hxv
        rwa [if_neg hxw] at hxv'
  have hqw' := d.within hs hqw hq hqlast hwo
  by_cases hplace : b = s.place
  · subst hplace
    refine ⟨w, hqw', s.place, before.filter (· ≠ o), after.filter (· ≠ o), ?_,
      hv.imp hkeep fun ⟨p, hp, hpv⟩ => ⟨_, d.mem_filter_place h hb hp, hdefined hpv⟩⟩
    rw [d.place' hs, hb, List.filter_append, List.filter_cons_of_pos (by simpa using hwo)]
  have hdefined' {p : OpRef} (hp : p ∈ before) (hpv : ctx.DefinedWithin p v) :
      ctx'.DefinedWithin p v := by
    have hpo : p ≠ o := by
      rintro rfl
      exact hplace (hc.ops.owner_unique (c := p) (by simp [hb, hp]) (by simp [s.place_ops]))
    have hpv' := hdefined hpv
    rwa [if_neg hpo] at hpv'
  by_cases hfirst : b = s.first.body
  · subst hfirst
    rw [s.first.ops] at hb hw
    have hcontent : w ∈ s.first.contents := (List.mem_append.1 hw).resolve_right fun hm =>
      hqlast (List.mem_singleton.1 hm ▸ hqw)
    obtain ⟨l, l', hl⟩ := List.append_of_mem hcontent
    have heq : before ++ w :: after = l ++ w :: (l' ++ [s.first.last]) := by
      rw [← hb, hl, List.append_assoc, List.cons_append]
    obtain ⟨rfl, -⟩ := Position.split_unique (hb ▸ s.first.ops ▸ hc.ops.nodup _) heq
    refine ⟨w, hqw', s.first.body, before, l' ++ barrier :: ctx.opsOf s.second.body, ?_,
      hv.imp hkeep fun ⟨p, hp, hpv⟩ => ⟨p, hp, hdefined' hp hpv⟩⟩
    rw [d.first, hl, List.append_assoc, List.cons_append]
  by_cases hsecond : b = s.second.body
  · subst hsecond
    obtain ⟨p, hp, hpv⟩ := hv.resolve_left hargs
    exact d.earlier_content h hqw' hb
      (.inr ⟨p, List.mem_append_right _ (List.mem_cons_of_mem _ hp), hdefined' hp hpv⟩)
  · exact ⟨w, hqw', b, before, after, (d.other b hplace hfirst hsecond).trans hb,
      hv.imp hkeep fun ⟨p, hp, hpv⟩ => ⟨p, hp, hdefined' hp hpv⟩⟩

/-! ### What stays inside -/

section Inside

variable (hroot : ctx.Within o root) (hne : o ≠ root)

include hroot hne

theorem within_of_definedWithin {x q : OpRef} {v : ValueRef} (ho : x ≠ o) (hprevious : x ≠ previous)
    (hx : ctx.DefinedWithin x v → ctx.KeptIn x v) (hq : v ∈ ctx'.heldBy q)
    (hv : ctx'.DefinedWithin x v) : ctx'.Within q x := by
  obtain ⟨p, hp, hex, hw⟩ := d.definedWithin_old h hroot hne hq hv
  obtain ⟨hq, hqo, hqlast, -⟩ := d.held_old h hroot hne hq
  have hw := (d.within_old h.sound hex hw).resolve_right fun e => hprevious e.1
  exact d.within h.sound (hx ⟨p, hp, hw⟩ q hq) hqo hqlast ho

theorem sealed {x : OpRef} (hex : ctx.HasOp x) (ho : x ≠ o) (hprevious : x ≠ previous)
    (hx : ctx.Sealed x) : ctx'.Sealed x := fun v hv hres q hq =>
  d.within_of_definedWithin h hroot hne ho hprevious
    (fun hv => hx v hv (by rwa [d.evolves.results hex] at hres)) hq hv

/-- If nothing looks into the second region, nothing looks into the two of them. -/
theorem sealed_previous (hx : ctx.Sealed o) : ctx'.Sealed previous := by
  have hs := h.sound
  intro v hv _ q hq
  obtain ⟨p, hp, hex, hw⟩ := d.definedWithin_old h hroot hne hq hv
  obtain ⟨hq, hqo, hqlast, -⟩ := d.held_old h hroot hne hq
  rcases d.within_old hs hex hw with hw | ⟨-, hw⟩
  · have hsealed : ctx.Sealed previous := h.sealed_of_next s.place_ops
      (within_root_previous h s hroot hne) (by rw [s.second.kind]; decide)
      (by rw [s.second.kind]; decide)
    exact d.within hs (hsealed v ⟨p, hp, hw⟩ (by rw [s.first.results]; exact List.not_mem_nil) q hq)
      hqo hqlast (s.ne hs.coherent).symm
  · exact d.within_region hs
      (hx v ⟨p, hp, hw⟩ (by rw [s.second.results]; exact List.not_mem_nil) q hq) hqo

omit hroot hne in
theorem backed_previous (hx : ctx.Backed o) : ctx'.Backed previous := by
  have hc := h.sound.coherent
  obtain ⟨b, before, next, after, hb, hnext⟩ := hx
  obtain rfl : b = s.place :=
    hc.ops.owner_unique (c := o) (by simp [hb]) (by simp [s.place_ops])
  have hsplit : ctx.opsOf s.place = (s.before ++ [previous]) ++ o :: s.after := by
    rw [s.place_ops, List.append_assoc]
    rfl
  obtain ⟨-, hafter⟩ := Position.split_unique (hb ▸ hc.ops.nodup s.place) (hb.symm.trans hsplit)
  refine ⟨s.place, s.before, next, after, by rw [d.place, ← hafter], ?_⟩
  rwa [d.evolves.kindOf (hc.hasOp_of_mem (b := s.place) (by simp [hb]))]

omit hroot hne in
theorem backed {x : OpRef} (ho : x ≠ o) (hx : ctx.Backed x) : ctx'.Backed x := by
  have hs := h.sound
  have hc := hs.coherent
  obtain ⟨b, before, next, after, hb, hnext⟩ := hx
  have hmem : next ∈ ctx.opsOf b := by simp [hb]
  have hnexto : next ≠ o := by
    rintro rfl
    rw [s.second.kind] at hnext
    exact hnext.elim (by decide) fun hn => absurd hn.2 (by decide)
  have hkind := d.evolves.kindOf (hc.hasOp_of_mem hmem)
  by_cases hplace : b = s.place
  · have hops := d.place' hs
    rw [← hplace, hb, List.filter_append, List.filter_cons_of_pos (by simpa using ho),
      List.filter_cons_of_pos (by simpa using hnexto)] at hops
    refine ⟨b, _, next, _, hops, hkind.symm ▸ hnext.imp_right fun hn => ⟨?_, hn.2⟩⟩
    rw [hn.1]
    rfl
  by_cases hfirst : b = s.first.body
  · subst hfirst
    rw [s.first.ops] at hb
    rcases List.eq_nil_or_concat after with rfl | ⟨after, z, rfl⟩
    · -- the barrier comes next now
      have hsplit : s.first.contents = before ++ [x] := by
        have e : s.first.contents ++ [s.first.last] = (before ++ [x]) ++ [next] := by
          rw [hb, List.append_assoc]
          rfl
        exact (List.append_inj' e rfl).1
      refine ⟨s.first.body, before, barrier, ctx.opsOf s.second.body, ?_, .inl d.bare.kind⟩
      rw [d.first, hsplit, List.append_assoc]
      rfl
    · have hsplit : s.first.contents = before ++ x :: next :: after := by
        rw [List.concat_eq_append, ← List.cons_append, ← List.cons_append,
          ← List.append_assoc] at hb
        exact (List.append_inj' hb rfl).1
      refine ⟨s.first.body, before, next, after ++ barrier :: ctx.opsOf s.second.body, ?_,
        .inl (hkind.trans (hnext.resolve_right fun hn => by simp at hn))⟩
      rw [d.first, hsplit, List.append_assoc, List.cons_append, List.cons_append]
  by_cases hsecond : b = s.second.body
  · subst hsecond
    refine ⟨s.first.body, s.first.contents ++ barrier :: before, next, after, ?_,
      hkind.symm ▸ hnext⟩
    rw [d.first, hb, List.append_assoc, List.cons_append]
  · exact ⟨b, before, next, after, (d.other b hplace hfirst hsecond).trans hb,
      hkind.symm ▸ hnext⟩

theorem sealed_or_backed {x : OpRef} (hx : ctx'.Within x root) :
    ctx'.Sealed x ∨ ctx'.Backed x := by
  have hs := h.sound
  rcases d.within_before hs hroot hne hx with rfl | ⟨hex, hw, ho, -⟩
  · -- nothing is defined in the barrier
    refine .inl fun v hv _ q hq => ?_
    obtain ⟨p, -, hex, hw⟩ := d.definedWithin_old h hroot hne hq hv
    exact absurd hw (d.bare.not_within d.sound.coherent fun e => d.isNew (e ▸ hex))
  by_cases hprevious : x = previous
  · rw [hprevious]
    exact (h.sealed_or_backed o hroot).imp (d.sealed_previous h hroot hne) (d.backed_previous h)
  · exact (h.sealed_or_backed x hw).imp (d.sealed h hroot hne hex ho hprevious) (d.backed h ho)

/-- Each region ends as before, but for the first one, which ends as the second one did. -/
theorem closed {b : BlockRef} {p last : OpRef} (hb : ctx'.holder b = some p)
    (hp : ctx'.Within p root) (hkind : ctx'.kindOf p = .parallel)
    (hlast : (ctx'.opsOf b).getLast? = some last) : ctx'.Closed last := by
  have hs := h.sound
  have hc := hs.coherent
  rcases d.within_before hs hroot hne hp with rfl | ⟨hex, hw, ho, -⟩
  · rw [d.bare.kind] at hkind
    exact absurd hkind (by decide)
  rw [d.evolves.kindOf hex] at hkind
  obtain ⟨-, hb'⟩ := d.evolves.holder_old hc d.sound.coherent hex hb
  have hclosed (t : ctx.Team p) (ht : ctx.Within p root) : ctx'.Closed t.last := by
    have hterm := t.ends
    have hlast : t.last ≠ previous := fun e => by
      rw [e, s.first.kind] at hterm
      exact absurd hterm (by decide)
    exact fun v hv q hq => d.within_of_definedWithin h hroot hne (ne_of_isTerminator s hterm) hlast
      (h.closed t.body p t.last (t.holder hc) ht t.kind (by rw [t.ops, List.getLast?_concat]) v)
      hq hv
  by_cases hprevious : p = previous
  · subst hprevious
    obtain rfl := s.first.eq_body hc hb'
    obtain rfl := Option.some.inj (d.getLast?_first.symm.trans hlast)
    have hterm := s.second.ends
    have hlast : s.second.last ≠ p := fun e => by
      rw [e, s.first.kind] at hterm
      exact absurd hterm (by decide)
    exact fun v hv q hq => d.within_of_definedWithin h hroot hne (ne_of_isTerminator s hterm) hlast
      (h.closed s.second.body o s.second.last (s.second.holder hc) hroot s.second.kind
        (by rw [s.second.ops, List.getLast?_concat]) v) hq hv
  · obtain ⟨team⟩ := h.nonempty_team hw hkind
    obtain rfl := team.eq_body hc hb'
    have hlast' : (ctx.opsOf team.body).getLast? = some team.last := by
      rw [team.ops, List.getLast?_concat]
    have hfirst : team.body ≠ s.first.body := fun e => by
      rw [e, s.first.holder hc] at hb'
      exact hprevious (Option.some.inj hb').symm
    have hsecond : team.body ≠ s.second.body := fun e => by
      rw [e, s.second.holder hc] at hb'
      exact ho (Option.some.inj hb').symm
    obtain rfl := Option.some.inj ((d.getLast? hs hlast' (ne_of_isTerminator s team.ends) hfirst
      hsecond).symm.trans hlast)
    exact hclosed team hw

theorem tight : ctx'.Tight root := by
  have hs := h.sound
  have hkind : ctx'.kindOf root = ctx.kindOf root := d.evolves.kindOf h.hasRoot
  have hstable := d.stable h.toStable hroot hne
  refine ⟨hstable, hkind ▸ h.root_ne_loop, hkind ▸ h.root_ne_conditional, fun q hq => ?_,
    fun q hq v hv => ?_, fun x hx => d.sealed_or_backed h hroot hne hx,
    fun b p last hb hp hk hlast => d.closed h hroot hne hb hp hk hlast⟩
  · obtain ⟨v, hv⟩ := List.exists_mem_of_ne_nil _ hq
    obtain ⟨hq, hqo, hqlast, -⟩ := d.held_old h hroot hne hv
    exact d.within hs (h.of_mem_heldBy hq).1 hqo hqlast hne.symm
  · have hv : v ∈ ctx'.heldBy q := by rwa [heldBy_eq, if_neg (hstable.live q hq)]
    obtain ⟨hq, hqo, hqlast, hlast⟩ := d.held_old h hroot hne hv
    by_cases hargs : v ∈ ctx.args s.second.body
    · exact .inr (d.foreign_arg hs hargs)
    · exact (h.of_mem_heldBy hq).2.2.imp (d.earlier h hqo hqlast hlast hargs)
        (d.evolves.foreign hs.coherent)

end Inside

end Tight

end Fuse.Done

end Offload.Context
