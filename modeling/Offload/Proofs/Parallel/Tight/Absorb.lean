import Offload.Proofs.Effects
import Offload.Proofs.Parallel.Absorb
import Offload.Proofs.Parallel.Tight

/-!
# Moving operations into a region keeps programs tight

What moves into a region is sealed, since the region comes right after it. All that is new
is nested in the copy and stands at the place of an operation in the tree that was
moved (`Twin`), so whatever is said of the tree can be said of the copy
(`Absorb.Done.twin`).
-/

namespace Offload.Context

variable {ctx ctx' : Context}

namespace Absorb.Done

variable {o previous copy : OpRef} {s : ctx.Absorb o previous} {σ : ValueRef → ValueRef}
  {root : OpRef}

section

variable (h : ctx.Tight root)

include h

theorem not_backed_previous (s : ctx.Absorb o previous) : ¬ctx.Backed previous :=
  h.sound.coherent.not_backed_of_next s.place_ops (by rw [s.team.kind]; decide)
    (by rw [s.team.kind]; decide)

theorem sealed_previous (s : ctx.Absorb o previous) (ho : ctx.Within o root) :
    ctx.Sealed previous :=
  h.sealed_of_next s.place_ops (s.within_root h.toStable ho) (by rw [s.team.kind]; decide)
    (by rw [s.team.kind]; decide)

variable (d : s.Done σ copy ctx')

include d

/-- What is defined earlier still is, if it does not move. -/
theorem earlier_old {q : OpRef} {v : ValueRef} (hq : ¬ctx.Within q previous)
    (hout : ¬ctx.DefinedWithin previous v) (hv : ctx.Earlier q v) : ctx'.Earlier q v := by
  have hs := h.sound
  have hc := hs.coherent
  obtain ⟨w, hqw, b, before, after, hb, hv⟩ := hv
  have hw : w ∈ ctx.opsOf b := by simp [hb]
  have hwprevious : w ≠ previous := fun e => hq (e ▸ hqw)
  have hblock := hc.hasBlock_of_blockOf ((hc.ops.owner_iff w b).2 hw)
  have hdefined {p : OpRef} (hpv : ctx.DefinedWithin p v) : ctx'.DefinedWithin p v := by
    obtain ⟨x, hx, hxp⟩ := hpv
    exact ⟨x, d.evolves.definer hc hx, d.within hs hxp fun hw => hout ⟨x, hx, hw⟩⟩
  have hargs (hv : v ∈ ctx.args b) : v ∈ ctx'.args b := by rwa [d.evolves.args hblock]
  have hqw' := d.within hs hqw hq
  by_cases hbody : b = s.team.body
  · subst hbody
    refine ⟨w, hqw', s.team.body, copy :: before, after, by rw [d.body, hb]; rfl,
      hv.imp hargs fun ⟨p, hp, hpv⟩ => ⟨p, List.mem_cons_of_mem _ hp, hdefined hpv⟩⟩
  · have hops := d.other b hblock hbody
    rw [hb, List.filter_append, List.filter_cons_of_pos (by simpa using hwprevious)] at hops
    refine ⟨w, hqw', b, _, _, hops, hv.imp hargs fun ⟨p, hp, hpv⟩ => ⟨p, ?_, hdefined hpv⟩⟩
    refine List.mem_filter.2 ⟨hp, ?_⟩
    rw [decide_eq_true_eq]
    rintro rfl
    exact hout hpv

/-- What is earlier than the operation is earlier than its copy. -/
theorem earlier_copy {v : ValueRef} (hv : ctx.Earlier previous v) : ctx'.Earlier copy (σ v) := by
  have hs := h.sound
  have hc := hs.coherent
  have hout := hs.not_definedWithin_of_earlier hv
  have hregion : ctx.Earlier o v := by
    have hsplit : ctx.opsOf s.place = (s.before ++ [previous]) ++ o :: s.after := by
      rw [s.place_ops, List.append_assoc]
      rfl
    refine (hc.earlier_iff hsplit).2 (((hc.earlier_iff s.place_ops).1 hv).imp_right fun hv =>
      hv.imp_left fun ⟨p, hp, hpv⟩ => ⟨p, List.mem_append_left _ hp, hpv⟩)
  rw [d.outside v hout]
  exact (d.earlier_old h (s.region_not_within hs) hout hregion).within
    (within_of_above (d.above_copy hs))

/-- What is nested in the copy stands at the place of something that is nested in the
    operation, and is like it. -/
theorem twin {z' : OpRef} (hz : ctx'.Within z' copy) :
    ∃ m z, ctx.Within z previous ∧ CopyOf ctx previous σ ctx' (m + 1) z z' ∧
      Twin ctx ctx' previous copy z z' ∧ (∀ v, ctx.Earlier z v → ctx'.Earlier z' (σ v)) ∧
      (ctx.Backed z → ctx'.Backed z') := by
  have hc := h.sound.coherent
  have hc' := d.sound.coherent
  refine CopyOf.exists_mirror (P := fun z z' => Twin ctx ctx' previous copy z z' ∧
      (∀ v, ctx.Earlier z v → ctx'.Earlier z' (σ v)) ∧ (ctx.Backed z → ctx'.Backed z'))
    hc hc' d.copyOf
    ⟨.top, fun v => d.earlier_copy h, fun hb => absurd hb (not_backed_previous h s)⟩
    (fun m y y' z z' _ hy _ hbeside => ?_) hz
  obtain ⟨htwin, hearlier, -⟩ := hy
  obtain ⟨b, b', before, before', after, after', hb, hb', hops, hops', hargs, hbefore, hafter⟩ :=
    hbeside.place
  refine ⟨hbeside.twin _ _ htwin, fun v hv => (hc'.earlier_iff hops').2 ?_, ?_⟩
  · rcases (hc.earlier_iff hops).1 hv with hv | ⟨p, hp, hv⟩ | ⟨a, ha, hv⟩
    · exact .inl (hargs ▸ List.mem_map_of_mem hv)
    · obtain ⟨p', hp', hcopy⟩ := Outcome.exists_of_mem_left hbefore hp
      exact .inr (.inl ⟨p', hp', (hcopy.definedWithin_iff hc hc').2 ⟨v, hv, rfl⟩⟩)
    · obtain rfl := Option.some.inj (hb.symm.trans ha)
      exact .inr (.inr ⟨y', hb', hearlier v hv⟩)
  · rintro ⟨c, before₁, next, rest, hsplit, hnext⟩
    obtain rfl : c = b := hc.ops.owner_unique (c := z) (by simp [hsplit]) (by simp [hops])
    obtain ⟨-, rfl⟩ := Position.split_unique (hops ▸ hc.ops.nodup c) (hops.symm.trans hsplit)
    obtain ⟨next', rest', hcopy, hrest, rfl⟩ := List.forall₂_cons_left_iff.1 hafter
    refine ⟨b', before', next', rest', hops', ?_⟩
    rw [hcopy.opCopy.kind]
    refine hnext.imp_right fun hlast => ⟨?_, hlast.2⟩
    rw [hlast.1] at hrest
    exact List.forall₂_nil_left_iff.1 hrest

/-! ### Holders -/

/-- What is held after the move by an operation from before: what it held, renamed. -/
theorem held_old {q : OpRef} {v : ValueRef} (hex : ctx.HasOp q) (hq : v ∈ ctx'.heldBy q) :
    ctx.Within q root ∧ ¬ctx.Within q previous ∧
      ∃ w ∈ ctx.heldBy q, v = s.rename σ w ∧ w.index < ctx.values.size := by
  have hlive : ¬ctx'.isErased q := fun he => by
    rw [heldBy_eq, if_pos he] at hq
    cases hq
  rw [d.held q hex hlive] at hq
  obtain ⟨w, hw, rfl⟩ := List.mem_map.1 hq
  exact ⟨(h.of_mem_heldBy hw).1, fun hqp => hlive ((d.erased q hex).2 (.inl hqp)), w, hw, rfl,
    h.index_lt hw⟩

/-- What is held by something new: what its twin holds, renamed. -/
theorem held_new (ho : ctx.Within o root) {q : OpRef} {v : ValueRef} (hnew : ¬ctx.HasOp q)
    (hq : v ∈ ctx'.heldBy q) :
    ctx'.Within q copy ∧ ∃ y, Twin ctx ctx' previous copy y q ∧ ctx.Within y previous ∧
      (∀ w, ctx.Earlier y w → ctx'.Earlier q (σ w)) ∧ ∃ w ∈ ctx.heldBy y, v = σ w := by
  have hex : ctx'.HasOp q := by
    by_contra hn
    rw [heldBy, readOp_of_not_hasOp hn] at hq
    cases hq
  have hw := d.only q hex hnew
  obtain ⟨m, y, hy, hcopy, htwin, hearlier, -⟩ := d.twin h hw
  have hroot := s.within_root h.toStable ho
  rw [heldBy_eq, hcopy.1.live, if_neg Bool.false_ne_true,
    hcopy.1.operands (h.visible hy hroot)] at hq
  obtain ⟨w, hmem, rfl⟩ := List.mem_map.1 hq
  exact ⟨hw, y, htwin, hy, hearlier, w, (h.heldBy_of_within (hy.trans hroot)) ▸ hmem, rfl⟩

omit d in
/-- The results of the operation are held in the region. -/
theorem within_of_mem_heldBy (s : ctx.Absorb o previous) {q : OpRef} {w : ValueRef}
    (hq : w ∈ ctx.heldBy q) (hres : w ∈ ctx.results previous) : ctx.Within q o ∧ q ≠ o := by
  obtain ⟨hw, hmem, -⟩ := h.of_mem_heldBy hq
  exact within_of_mem_results h.sound s (h.live q hw) hmem hres

omit h in
/-- What is renamed is new. -/
theorem size_le_rename {w : ValueRef} (hw : ctx.DefinedWithin previous w) :
    ctx.values.size ≤ (σ w).index := (d.fresh w hw).1

/-! ### What stays inside -/

/-- What is defined in an operation that does not move is held inside it alone, if it was so
    before. -/
theorem within_of_definedWithin (ho : ctx.Within o root) {x q : OpRef} {v : ValueRef}
    (hex : ctx.HasOp x) (hx : ¬ctx.Within x previous) (hkept : ctx.DefinedWithin x v → ctx.KeptIn x v)
    (hv : ctx'.DefinedWithin x v) (hq : v ∈ ctx'.heldBy q) : ctx'.Within q x := by
  have hs := h.sound
  have hc := hs.coherent
  obtain ⟨p, hp, hpx⟩ := hv
  have hprevious : ∀ w ∈ ctx.results previous, ctx.DefinedWithin previous w := fun w hw =>
    hc.definedWithin_iff.2 (.inl hw)
  have hcopy {q : OpRef} (hq : ctx'.Within q copy) (hox : ctx.Within o x) : ctx'.Within q x :=
    (hq.trans (within_of_above (d.above_copy hs))).trans (d.within hs hox (s.region_not_within hs))
  rcases d.within_before hs hex hpx with ⟨hpex, hpx⟩ | ⟨hpnew, -, hox⟩
  · -- an old value
    have hlt := d.evolves.index_lt_of_definer hc d.sound.coherent hpex hp
    rw [d.evolves.definer_eq hc hlt] at hp
    have hkept := hkept ⟨p, hp, hpx⟩
    by_cases hqex : ctx.HasOp q
    · obtain ⟨-, hqp, w, hw, rfl, -⟩ := d.held_old h hqex hq
      rw [rename] at hlt hkept
      split at hlt
      · rename_i hres
        exact absurd hlt (Nat.not_lt.2 (d.size_le_rename (hprevious w hres)))
      · rename_i hres
        rw [if_neg hres] at hkept
        exact d.within hs (hkept q hw) hqp
    · obtain ⟨hqc, y, -, hy, -, w, hw, rfl⟩ := d.held_new h ho hqex hq
      by_cases hwp : ctx.DefinedWithin previous w
      · exact absurd hlt (Nat.not_lt.2 (d.size_le_rename hwp))
      rw [d.outside w hwp] at hkept
      -- the operation moves inside
      rcases (hkept y hw).total hy with hw | hw
      · exact absurd hw hx
      · obtain ⟨t, ht, htx⟩ := (within_iff_above.1 hw).resolve_left fun e => hx (e ▸ .refl _)
        rw [s.above_previous hc, ← s.above_region hc] at ht
        exact hcopy hqc ((within_of_above ht).trans htx)
  · -- a new value
    by_cases hqex : ctx.HasOp q
    · obtain ⟨-, hqp, w, hw, rfl, hlt⟩ := d.held_old h hqex hq
      rw [rename] at hp
      split at hp
      · rename_i hres
        exact d.within hs ((within_of_mem_heldBy h s hw hres).1.trans hox) hqp
      · rw [d.evolves.definer_eq hc hlt] at hp
        exact absurd (hc.hasOp_of_definer hp) hpnew
    · exact hcopy (d.held_new h ho hqex hq).1 hox

/-- What is defined in something new is held inside it alone, if it is so at its place in the
    operation that moves. -/
theorem within_of_definedWithin_copy (ho : ctx.Within o root) {z x q : OpRef} {u : ValueRef}
    (htwin : Twin ctx ctx' previous copy z x) (hu : ctx.DefinedWithin previous u)
    (hres : u ∉ ctx.results previous) (hkept : ctx.KeptIn z u) (hq : σ u ∈ ctx'.heldBy q) :
    ctx'.Within q x := by
  have hs := h.sound
  have hsize := d.size_le_rename hu
  by_cases hqex : ctx.HasOp q
  · obtain ⟨-, -, w, hw, hrename, hlt⟩ := d.held_old h hqex hq
    rw [rename] at hrename
    split at hrename
    · rename_i hw'
      have hdw := hs.coherent.definedWithin_iff.2 (.inl hw')
      exact absurd (d.injective w u hdw hu hrename.symm ▸ hw') hres
    · rw [hrename] at hsize
      exact absurd hlt (Nat.not_lt.2 hsize)
  · obtain ⟨-, y, hy, -, -, w, hw, hrename⟩ := d.held_new h ho hqex hq
    by_cases hdw : ctx.DefinedWithin previous w
    · obtain rfl := d.injective u w hu hdw hrename
      exact (htwin.within_iff hs d.sound hy).1 (hkept y hw)
    · rw [d.outside w hdw] at hrename
      rw [hrename] at hsize
      exact absurd (h.index_lt hw) (Nat.not_lt.2 hsize)

/-- An operation that does not move has none of its values renamed. -/
theorem sealed_old (ho : ctx.Within o root) {x : OpRef} (hex : ctx.HasOp x)
    (hx : ¬ctx.Within x previous) (hsealed : ctx.Sealed x) : ctx'.Sealed x := fun v hv hres q hq =>
  d.within_of_definedWithin h ho hex hx
    (fun hv => hsealed v hv (by rwa [d.evolves.results hex] at hres)) hv hq

theorem sealed_copy (ho : ctx.Within o root) {z x : OpRef} {m : Nat} (hz : ctx.Within z previous)
    (hcopy : CopyOf ctx previous σ ctx' (m + 1) z x) (htwin : Twin ctx ctx' previous copy z x)
    (hsealed : ctx.Sealed z) : ctx'.Sealed x := by
  have hs := h.sound
  have hc := hs.coherent
  intro v hv hres q hq
  obtain ⟨u, hu, rfl⟩ := (hcopy.definedWithin_iff hc d.sound.coherent).1 hv
  have hres' : u ∉ ctx.results z := fun hm => hres (hcopy.1.results ▸ List.mem_map_of_mem hm)
  have hdu : ctx.DefinedWithin previous u := by
    obtain ⟨p, hp, hw⟩ := hu
    exact ⟨p, hp, hw.trans hz⟩
  refine d.within_of_definedWithin_copy h ho htwin hdu (fun hm => ?_) (hsealed u hu hres') hq
  -- the results of the operation are defined in it alone
  obtain ⟨p, hp, hw⟩ := hu
  obtain rfl := Option.some.inj ((definer_of_mem_results hc hm).symm.trans hp)
  exact hres' (hs.grounded.antisymm hz hw ▸ hm)

theorem backed_old {x : OpRef} (hx : x ≠ previous)
    (hbacked : ctx.Backed x) : ctx'.Backed x := by
  have hs := h.sound
  have hc := hs.coherent
  obtain ⟨b, before, next, after, hb, hnext⟩ := hbacked
  have hmem : next ∈ ctx.opsOf b := by simp [hb]
  have hblock := hc.hasBlock_of_blockOf ((hc.ops.owner_iff next b).2 hmem)
  -- a barrier does not move, and a terminator at the end does not either
  have hne : next ≠ previous := by
    rintro rfl
    rcases hnext with hbarrier | ⟨rfl, -⟩
    · have hreads := isReadOnlyWithin_onlyReads s.readOnly
      rw [hbarrier] at hreads
      exact absurd hreads (by decide)
    · refine s.getLast?_ne hc b ?_
      rw [hb, List.getLast?_append_cons]
      rfl
  rw [← d.evolves.kindOf (hc.hasOp_of_mem hmem)] at hnext
  by_cases hbody : b = s.team.body
  · subst hbody
    exact ⟨s.team.body, copy :: before, next, after, by rw [d.body, hb]; rfl, hnext⟩
  · have hops := d.other b hblock hbody
    rw [hb, List.filter_append, List.filter_cons_of_pos (by simpa using hx),
      List.filter_cons_of_pos (by simpa using hne)] at hops
    exact ⟨b, _, next, _, hops, hnext.imp_right fun hlast => ⟨by rw [hlast.1]; rfl, hlast.2⟩⟩

/-- Each region ends as before, and so does each copy of one. -/
theorem closed (ho : ctx.Within o root) {b : BlockRef} {p last : OpRef}
    (hb : ctx'.holder b = some p) (hp : ctx'.Within p root) (hkind : ctx'.kindOf p = .parallel)
    (hlast : (ctx'.opsOf b).getLast? = some last) : ctx'.Closed last := by
  have hs := h.sound
  have hc := hs.coherent
  have hc' := d.sound.coherent
  have hprevious := s.within_root h.toStable ho
  rcases d.within_before hs h.hasRoot hp with ⟨hex, hp'⟩ | ⟨-, hpc, -⟩
  · rw [d.evolves.kindOf hex] at hkind
    obtain ⟨hblock, hb'⟩ := d.evolves.holder_old hc hc' hex hb
    obtain ⟨team⟩ := h.nonempty_team hp' hkind
    obtain rfl := team.eq_body hc hb'
    have hlast' : (ctx.opsOf team.body).getLast? = some team.last := by
      rw [team.ops, List.getLast?_concat]
    have hne : team.last ≠ previous := fun e => s.getLast?_ne hc team.body (e ▸ hlast')
    obtain rfl := Option.some.inj ((d.getLast? hblock hlast' hne).symm.trans hlast)
    have hmem := List.mem_of_getLast? hlast'
    have hroot : ¬ctx.Within root previous := fun hw => s.region_not_within hs (ho.trans hw)
    have hnot : ¬ctx.Within team.last previous := fun hw => by
      obtain ⟨t, ht, hw⟩ := (within_iff_above.1 hw).resolve_left hne
      obtain rfl := Option.some.inj (((hc.above_of_mem hmem).trans hb').symm.trans ht)
      exact d.not_within_previous hs hroot hex hp hw
    exact fun v hv q hq => d.within_of_definedWithin h ho (hc.hasOp_of_mem hmem) hnot
      (h.closed team.body p team.last hb' hp' hkind hlast' v) hv hq
  · -- what ends a copy is the copy of what ends the region
    obtain ⟨m, z, hz, hcopy, htwin, -, -⟩ := d.twin h hpc
    have habove : ctx'.above last = some p :=
      (hc'.above_of_mem (List.mem_of_getLast? hlast)).trans hb
    obtain ⟨w, hbeside⟩ := hcopy.exists_beside hc hc' habove
    obtain ⟨c, c', before, before', after, after', hc₁, -, hops, hops', -, -, hafter⟩ :=
      hbeside.place
    obtain rfl : c' = b := hc'.ops.owner_unique (c := last) (by simp [hops'])
      (List.mem_of_getLast? hlast)
    obtain rfl := Position.eq_nil_of_getLast? (hops' ▸ hc'.ops.nodup c') (hops' ▸ hlast)
    obtain rfl := List.forall₂_nil_right_iff.1 hafter
    have hw := hbeside.copyOf.opCopy
    have hclosed := h.closed c z w hc₁ (hz.trans hprevious) (hcopy.1.kind ▸ hkind)
      (by rw [hops, List.getLast?_concat])
    intro v hv q hq
    obtain ⟨u, hu, rfl⟩ := (hbeside.copyOf.definedWithin_iff hc hc').1 hv
    have hwz : ctx.above w = some z := (hc.above_of_mem (by simp [hops])).trans hc₁
    have hdu : ctx.DefinedWithin previous u := by
      obtain ⟨x, hx, hxw⟩ := hu
      exact ⟨x, hx, (hxw.trans (within_of_above hwz)).trans hz⟩
    refine d.within_of_definedWithin_copy h ho (hbeside.twin _ _ htwin) hdu (fun hm => ?_)
      (hclosed u hu) hq
    obtain ⟨x, hx, hxw⟩ := hu
    obtain rfl := Option.some.inj ((definer_of_mem_results hc hm).symm.trans hx)
    exact hs.grounded.not_within_above hwz (hz.trans hxw)

theorem sealed_or_backed (ho : ctx.Within o root) {x : OpRef} (hx : ctx'.Within x root) :
    ctx'.Sealed x ∨ ctx'.Backed x := by
  have hs := h.sound
  rcases d.within_before hs h.hasRoot hx with ⟨hex, hx'⟩ | ⟨-, hxc, -⟩
  · have hroot : ¬ctx.Within root previous := fun hw => s.region_not_within hs (ho.trans hw)
    have hnot := d.not_within_previous hs hroot hex hx
    exact (h.sealed_or_backed x hx').imp (d.sealed_old h ho hex hnot)
      (d.backed_old h fun e => hnot (e ▸ .refl _))
  · obtain ⟨m, z, hz, hcopy, htwin, -, hbacked⟩ := d.twin h hxc
    exact (h.sealed_or_backed z (hz.trans (s.within_root h.toStable ho))).imp
      (d.sealed_copy h ho hz hcopy htwin) hbacked

theorem earlier (ho : ctx.Within o root) {q : OpRef} {v : ValueRef} (hq : v ∈ ctx'.heldBy q) :
    ctx'.Earlier q v ∨ ctx'.Foreign v := by
  have hs := h.sound
  have hc := hs.coherent
  by_cases hex : ctx.HasOp q
  · obtain ⟨-, hqp, w, hw, rfl, -⟩ := d.held_old h hex hq
    rw [rename]
    split
    · -- the copy is first in the region
      rename_i hres
      obtain ⟨hqo, hne⟩ := within_of_mem_heldBy h s hw hres
      obtain ⟨c, hc', hqc⟩ := (within_iff_below.1 hqo).resolve_left hne
      obtain ⟨c₁, c₂, hsplit⟩ := List.append_of_mem (s.team.mem_of_above hc hc')
      refine .inl ⟨c, d.within hs hqc hqp, s.team.body, copy :: c₁, c₂, ?_,
        .inr ⟨copy, List.mem_cons_self, ?_⟩⟩
      · rw [d.body, hsplit]
        rfl
      · exact (d.copyOf.definedWithin_iff hc d.sound.coherent).2
          ⟨w, hc.definedWithin_iff.2 (.inl hres), rfl⟩
    · rename_i hres
      have hout : ¬ctx.DefinedWithin previous w := fun hdw =>
        hqp (sealed_previous h s ho w hdw hres q hw)
      exact (h.of_mem_heldBy hw).2.2.imp (d.earlier_old h hqp hout) (d.evolves.foreign hc)
  · obtain ⟨-, y, -, hy, hearlier, w, hw, rfl⟩ := d.held_new h ho hex hq
    refine (h.of_mem_heldBy hw).2.2.imp (hearlier w) fun hforeign => ?_
    rw [d.outside w (h.not_definedWithin_of_foreign (s.within_root h.toStable ho) hforeign)]
    exact d.evolves.foreign hc hforeign

theorem tight (ho : ctx.Within o root) : ctx'.Tight root := by
  have hs := h.sound
  have hkind : ctx'.kindOf root = ctx.kindOf root := d.evolves.kindOf h.hasRoot
  have hstable := d.stable h.toStable ho
  refine ⟨hstable, hkind ▸ h.root_ne_loop, hkind ▸ h.root_ne_conditional, fun q hq => ?_,
    fun q hq v hv => ?_, fun x hx => d.sealed_or_backed h ho hx, fun b p last hb hp hk hlast =>
      d.closed h ho hb hp hk hlast⟩
  · obtain ⟨v, hv⟩ := List.exists_mem_of_ne_nil _ hq
    by_cases hex : ctx.HasOp q
    · obtain ⟨hw, hqp, -⟩ := d.held_old h hex hv
      exact d.within hs hw hqp
    · exact ((d.held_new h ho hex hv).1.trans (within_of_above (d.above_copy hs))).trans
        (d.within hs ho (s.region_not_within hs))
  · exact d.earlier h ho (by rwa [heldBy_eq, if_neg (hstable.live q hq)])

end

end Absorb.Done

end Offload.Context
