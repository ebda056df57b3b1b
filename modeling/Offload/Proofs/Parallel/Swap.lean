import Offload.Parallel.Interchange
import Offload.Proofs.Parallel.Invariant
import Offload.Proofs.Pattern.Success

/-!
# Swapping a region with what is around it

A parallel region and the terminator behind it are all that is in a block of a loop
or conditional (`Swap`). After the two have been swapped the region stands where the
outer operation stood, the outer operation is in front of the last operation of the
region, and what else was in the region is in the block where the region was, with a
barrier behind it if one was asked for (`Swap.Done`). Nothing else has changed, and
scope is kept but for what is discarded (`Swap.Done.inScope`).
-/

namespace Offload

namespace Context

variable {ctx ctx' : Context}

/-- A place where a region can be swapped with the operation around it. -/
structure Swap (ctx : Context) (o outer : OpRef) where
  team : ctx.Team o
  place : BlockRef
  before : List OpRef
  after : List OpRef
  place_ops : ctx.opsOf place = before ++ outer :: after
  inner : BlockRef
  final : OpRef
  inner_ops : ctx.opsOf inner = [o, final]
  inner_holder : ctx.holder inner = some outer
  inner_first : ∃ r, (ctx.regionsOf outer)[0]? = some r ∧ (ctx.blocksOf r).head? = some inner
  kind : ctx.kindOf outer = .loop ∨ ctx.kindOf outer = .conditional
  results : ctx.results outer = []

theorem Coherent.not_mem_of_ne (h : ctx.Coherent) {o : OpRef} {b c : BlockRef}
    (ho : o ∈ ctx.opsOf b) (hne : c ≠ b) : o ∉ ctx.opsOf c :=
  fun hc => hne (h.ops.owner_unique hc ho)

namespace Swap

variable {o outer : OpRef} (s : ctx.Swap o outer)

include s

theorem above_region (h : ctx.Coherent) : ctx.above o = some outer :=
  (h.above_of_mem (b := s.inner) (by simp [s.inner_ops])).trans s.inner_holder

theorem above_outer (h : ctx.Coherent) : ctx.above outer = ctx.holder s.place :=
  h.above_of_mem (by simp [s.place_ops])

theorem outer_not_within (h : ctx.Sound) : ¬ctx.Within outer o :=
  h.grounded.not_within_above (s.above_region h.coherent)

theorem ne (h : ctx.Sound) : o ≠ outer := by
  intro e
  exact s.outer_not_within h (e ▸ .refl o)

theorem place_ne_inner (h : ctx.Sound) : s.place ≠ s.inner := by
  intro e
  have habove := s.above_outer h.coherent
  rw [e, s.inner_holder] at habove
  exact h.grounded.not_within_above habove (.refl outer)

theorem body_ne_inner (h : ctx.Sound) : s.team.body ≠ s.inner := by
  intro e
  have hholder := s.team.holder h.coherent
  rw [e, s.inner_holder] at hholder
  exact s.ne h (Option.some.inj hholder).symm

theorem body_ne_place (h : ctx.Sound) : s.team.body ≠ s.place := by
  intro e
  have habove := s.above_outer h.coherent
  rw [← e, s.team.holder h.coherent] at habove
  exact s.outer_not_within h (within_of_above habove)

end Swap

/-- A region and the operation around it were swapped. -/
structure Swap.Done {o outer : OpRef} (s : ctx.Swap o outer) (barriers : List OpRef)
    (ctx' : Context) : Prop where
  evolves : ctx.Evolves ctx'
  sound : ctx'.Sound
  place : ctx'.opsOf s.place = s.before ++ o :: s.after
  body : ctx'.opsOf s.team.body = [outer, s.team.last]
  inner : ctx'.opsOf s.inner = s.team.contents ++ (barriers ++ [s.final])
  other : ∀ b, b ≠ s.place → b ≠ s.team.body → b ≠ s.inner → ctx'.opsOf b = ctx.opsOf b
  held : ctx'.heldBy = ctx.heldBy
  erased : ctx'.isErased = ctx.isErased
  barriers : ∀ p ∈ barriers, ¬ctx.HasOp p ∧ ctx'.Bare .barrier p

/-! ## Where things are -/

namespace Swap.Done

variable {o outer : OpRef} {s : ctx.Swap o outer} {barriers : List OpRef}

/-- What is listed after the swap was listed before it, or is a barrier. -/
theorem mem_cases (d : s.Done barriers ctx') {p : OpRef} {b : BlockRef}
    (hp : p ∈ ctx'.opsOf b) : p ∈ barriers ∨ ∃ c, p ∈ ctx.opsOf c := by
  by_cases hplace : b = s.place
  · rw [hplace, d.place, List.mem_append, List.mem_cons] at hp
    rcases hp with hp | rfl | hp
    · exact .inr ⟨s.place, by simp [s.place_ops, hp]⟩
    · exact .inr ⟨s.inner, by simp [s.inner_ops]⟩
    · exact .inr ⟨s.place, by simp [s.place_ops, hp]⟩
  by_cases hbody : b = s.team.body
  · rw [hbody, d.body] at hp
    rcases List.mem_pair.1 hp with rfl | rfl
    · exact .inr ⟨s.place, by simp [s.place_ops]⟩
    · exact .inr ⟨s.team.body, by simp [s.team.ops]⟩
  by_cases hinner : b = s.inner
  · rw [hinner, d.inner, List.mem_append, List.mem_append, List.mem_singleton] at hp
    rcases hp with hp | hp | rfl
    · exact .inr ⟨s.team.body, by simp [s.team.ops, hp]⟩
    · exact .inl hp
    · exact .inr ⟨s.inner, by simp [s.inner_ops]⟩
  · rw [d.other b hplace hbody hinner] at hp
    exact .inr ⟨b, hp⟩

theorem blockOf_region (d : s.Done barriers ctx') : ctx'.blockOf o = some s.place :=
  (d.sound.coherent.ops.owner_iff _ _).2 (by simp [d.place])

theorem blockOf_outer (d : s.Done barriers ctx') : ctx'.blockOf outer = some s.team.body :=
  (d.sound.coherent.ops.owner_iff _ _).2 (by simp [d.body])

theorem blockOf_content (d : s.Done barriers ctx') {p : OpRef} (hp : p ∈ s.team.contents) :
    ctx'.blockOf p = some s.inner :=
  (d.sound.coherent.ops.owner_iff _ _).2 (by simp [d.inner, hp])

/-- All others are where they were. -/
theorem blockOf_other (d : s.Done barriers ctx') (h : ctx.Sound) {p : OpRef} (hex : ctx.HasOp p)
    (ho : p ≠ o) (houter : p ≠ outer) (hp : p ∉ s.team.contents) :
    ctx'.blockOf p = ctx.blockOf p := by
  cases hb : ctx.blockOf p with
  | some b =>
    have hm := (h.coherent.ops.owner_iff p b).1 hb
    refine (d.sound.coherent.ops.owner_iff p b).2 ?_
    by_cases hplace : b = s.place
    · rw [hplace, s.place_ops] at hm
      rw [hplace, d.place]
      simpa [ho, houter] using hm
    by_cases hbody : b = s.team.body
    · rw [hbody, s.team.ops] at hm
      rw [hbody, d.body]
      have hlast : p = s.team.last := by simpa [hp] using hm
      simp [hlast]
    by_cases hinner : b = s.inner
    · rw [hinner, s.inner_ops] at hm
      rw [hinner, d.inner]
      have hfinal : p = s.final := by simpa [ho] using hm
      simp [hfinal]
    · rwa [d.other b hplace hbody hinner]
  | none =>
    cases hb' : ctx'.blockOf p with
    | none => rfl
    | some b =>
      rcases d.mem_cases ((d.sound.coherent.ops.owner_iff p b).1 hb') with hm | ⟨c, hm⟩
      · exact absurd hex (d.barriers p hm).1
      · rw [(h.coherent.ops.owner_iff p c).2 hm] at hb
        cases hb

theorem holder (d : s.Done barriers ctx') (h : ctx.Sound) {b : BlockRef} {a : OpRef}
    (hb : ctx.holder b = some a) : ctx'.holder b = some a := d.evolves.holder h.coherent hb

theorem above_outer (d : s.Done barriers ctx') (h : ctx.Sound) : ctx'.above outer = some o := by
  rw [above, d.blockOf_outer]
  exact d.holder h (s.team.holder h.coherent)

theorem above_content (d : s.Done barriers ctx') (h : ctx.Sound) {p : OpRef}
    (hp : p ∈ s.team.contents) : ctx'.above p = some outer := by
  rw [above, d.blockOf_content hp]
  exact d.holder h s.inner_holder

theorem above_region (d : s.Done barriers ctx') (h : ctx.Sound) {a : OpRef}
    (ha : ctx.above outer = some a) : ctx'.above o = some a := by
  rw [s.above_outer h.coherent] at ha
  rw [above, d.blockOf_region]
  exact d.holder h ha

theorem above_other (d : s.Done barriers ctx') (h : ctx.Sound) {p a : OpRef} (ho : p ≠ o)
    (houter : p ≠ outer) (hp : p ∉ s.team.contents) (ha : ctx.above p = some a) :
    ctx'.above p = some a := by
  rw [d.evolves.above_eq h.coherent
    (d.blockOf_other h (h.coherent.hasOp_of_above ha).1 ho houter hp), ha]

theorem above_last (h : ctx.Coherent) : ctx.above s.team.last = some o :=
  (h.above_of_mem (b := s.team.body) (by simp [s.team.ops])).trans (s.team.holder h)

theorem above_content_before (h : ctx.Coherent) {p : OpRef} (hp : p ∈ s.team.contents) :
    ctx.above p = some o :=
  (h.above_of_mem (b := s.team.body) (by simp [s.team.ops, hp])).trans (s.team.holder h)

/-- What was nested in an operation still is; only the outer operation has lost what
    holds it now. -/
theorem within (d : s.Done barriers ctx') (h : ctx.Sound) {p a : OpRef} (hw : ctx.Within p a)
    (ha : a ≠ outer) : ctx'.Within p a := by
  induction hw using Relation.ReflTransGen.head_induction_on with
  | refl => exact .refl a
  | @head p q hstep _ ih =>
    by_cases ho : p = o
    · subst ho
      obtain rfl := Option.some.inj ((s.above_region h.coherent).symm.trans hstep)
      rcases within_iff_above.1 ih with e | ⟨t, ht, hw⟩
      · exact absurd e.symm ha
      · obtain rfl := Option.some.inj ((d.above_outer h).symm.trans ht)
        exact hw
    by_cases houter : p = outer
    · subst houter
      exact ((within_of_above (d.above_outer h)).trans
        (within_of_above (d.above_region h hstep))).trans ih
    by_cases hp : p ∈ s.team.contents
    · obtain rfl := Option.some.inj ((above_content_before h.coherent hp).symm.trans hstep)
      exact ((within_of_above (d.above_content h hp)).trans
        (within_of_above (d.above_outer h))).trans ih
    · exact (within_of_above (d.above_other h ho houter hp hstep)).trans ih

/-- What is nested in an operation around the region was so before, but for the
    barriers. -/
theorem within_before (d : s.Done barriers ctx') (h : ctx.Sound) {p root : OpRef}
    (hroot : ctx.Within o root) (hne : o ≠ root) (hw : ctx'.Within p root) :
    p ∈ barriers ∨ ctx.Within p root := by
  induction hw using Relation.ReflTransGen.head_induction_on with
  | refl => exact .inr (.refl root)
  | @head p q hstep _ ih =>
    obtain ⟨b, hb, hholder⟩ := Option.bind_eq_some_iff.1 hstep
    rcases d.mem_cases ((d.sound.coherent.ops.owner_iff p b).1 hb) with hm | ⟨c, hm⟩
    · exact .inl hm
    have hex := h.coherent.hasOp_of_mem hm
    have hq : ctx.Within q root := ih.resolve_left fun hq => by
      have hbare := d.barriers q hq
      exact hbare.2.not_within d.sound.coherent (fun e => hbare.1 (e ▸ hex))
        (within_of_above hstep)
    right
    by_cases ho : p = o
    · exact ho ▸ hroot
    by_cases houter : p = outer
    · obtain ⟨t, ht, hw⟩ := (within_iff_above.1 hroot).resolve_left hne
      obtain rfl := Option.some.inj ((s.above_region h.coherent).symm.trans ht)
      exact houter ▸ hw
    by_cases hp : p ∈ s.team.contents
    · exact (within_of_above (above_content_before h.coherent hp)).trans hroot
    · rw [d.blockOf_other h hex ho houter hp] at hb
      rw [d.evolves.holder_eq h.coherent (h.coherent.hasBlock_of_blockOf hb)] at hholder
      exact (within_of_above (above_eq_some_iff.2 (by
        obtain ⟨r, hr, ha⟩ := Option.bind_eq_some_iff.1 hholder
        exact ⟨b, r, hb, hr, ha⟩))).trans hq

/-! ## Scope -/

/-- The scope of the outer operation is that of the region now, and still its own. -/
theorem inScope_both (d : s.Done barriers ctx') (h : ctx.Sound) {v : ValueRef}
    (hv : ctx.InScope outer v)
    (habove : ∀ a, ctx.above outer = some a → ctx.InScope a v → ctx'.InScope a v) :
    ctx'.InScope o v ∧ ctx'.InScope outer v := by
  have hregion : ctx'.InScope o v := by
    refine (d.sound.coherent.inScope_iff d.place).2 ?_
    have hplace := h.coherent.hasBlock_of_blockOf
      ((h.coherent.ops.owner_iff outer s.place).2 (by simp [s.place_ops]))
    rcases (h.coherent.inScope_iff s.place_ops).1 hv with hv | ⟨p, hp, hv⟩ | ⟨a, ha, hv⟩
    · exact .inl (by rwa [d.evolves.args hplace])
    · refine .inr (.inl ⟨p, hp, ?_⟩)
      rwa [d.evolves.results (h.coherent.hasOp_of_mem (b := s.place) (by simp [s.place_ops, hp]))]
    · exact .inr (.inr ⟨a, d.holder h ha, habove a ((s.above_outer h.coherent).trans ha) hv⟩)
  exact ⟨hregion, hregion.within (within_of_above (d.above_outer h))⟩

/-- Scope is kept but for what is discarded. The region itself has lost the arguments
    of the block where it was, but it has no operands. -/
theorem inScope (d : s.Done barriers ctx') (h : ctx.Sound) {p : OpRef} {v : ValueRef}
    (ho : p ≠ o) (hlast : ¬ctx.Within p s.team.last) (hv : ctx.InScope p v) :
    ctx'.InScope p v := by
  have hc := h.coherent
  have hc' := d.sound.coherent
  have hargs {b : BlockRef} {q : OpRef} (hq : q ∈ ctx.opsOf b) : ctx'.args b = ctx.args b :=
    d.evolves.args (hc.hasBlock_of_blockOf ((hc.ops.owner_iff q b).2 hq))
  have hres {b : BlockRef} {q : OpRef} (hq : q ∈ ctx.opsOf b) : ctx'.results q = ctx.results q :=
    d.evolves.results (hc.hasOp_of_mem hq)
  have hnot {b : BlockRef} {q a : OpRef} (hq : q ∈ ctx.opsOf b) (ha : ctx.holder b = some a)
      (hlast : ¬ctx.Within q s.team.last) : ¬ctx.Within a s.team.last := fun hw =>
    hlast ((within_of_above ((hc.above_of_mem hq).trans ha)).trans hw)
  have hlast_region : ctx.Within s.team.last o := within_of_above (above_last hc)
  suffices (p ≠ o → ¬ctx.Within p s.team.last → ∀ v, ctx.InScope p v → ctx'.InScope p v) ∧
      (p = o ∨ p = outer → ∀ v, ctx.InScope outer v → ctx'.InScope o v ∧ ctx'.InScope outer v) from
    this.1 ho hlast v hv
  clear hv hlast ho v
  induction p using h.grounded.above_induction with
  | step p ih =>
    have hboth (hp : p = o ∨ p = outer) (v : ValueRef) (hv : ctx.InScope outer v) :
        ctx'.InScope o v ∧ ctx'.InScope outer v := by
      rcases hp with rfl | rfl
      · exact (ih outer (s.above_region hc)).2 (.inr rfl) v hv
      · refine d.inScope_both h hv fun a ha hv => (ih a ha).1 ?_ (fun hw => ?_) v hv
        · rintro rfl
          exact s.outer_not_within h (within_of_above ha)
        · exact s.outer_not_within h (((within_of_above ha).trans hw).trans hlast_region)
    refine ⟨fun ho hlast v hv => ?_, hboth⟩
    obtain ⟨b, before, after, hsplit⟩ := hc.exists_split_of_inScope hv
    have hp : p ∈ ctx.opsOf b := by simp [hsplit]
    by_cases houter : p = outer
    · exact houter ▸ (hboth (.inr houter) v (houter ▸ hv)).2
    have hup (a : OpRef) (ha : ctx.holder b = some a) (hne : a ≠ o) (hv : ctx.InScope a v) :
        ctx'.InScope a v :=
      (ih a ((hc.above_of_mem hp).trans ha)).1 hne (hnot hp ha hlast) v hv
    by_cases hplace : b = s.place
    · subst hplace
      have hne (a : OpRef) (ha : ctx.holder s.place = some a) : a ≠ o := by
        rintro rfl
        exact s.body_ne_place h (s.team.eq_body hc ha).symm
      rw [s.place_ops] at hp
      rcases List.mem_append.1 hp with hm | hm
      · obtain ⟨l, l', hl⟩ := List.append_of_mem hm
        have heq := hsplit.symm.trans s.place_ops
        rw [hl, List.append_assoc, List.cons_append] at heq
        obtain ⟨rfl, -⟩ := Position.split_unique (hsplit ▸ hc.ops.nodup s.place) heq
        refine d.evolves.inScope_of_split h d.sound hsplit hv
          (show _ = before ++ p :: (l' ++ o :: s.after) by rw [d.place, hl]; simp)
          (fun q hq _ => hq) fun a ha => hup a ha (hne a ha)
      · obtain ⟨l, l', hl⟩ := List.append_of_mem ((List.mem_cons.1 hm).resolve_left houter)
        have heq : before ++ p :: after = (s.before ++ outer :: l) ++ p :: l' := by
          rw [← hsplit, s.place_ops, hl]
          simp
        obtain ⟨rfl, -⟩ := Position.split_unique (hsplit ▸ hc.ops.nodup s.place) heq
        refine d.evolves.inScope_of_split h d.sound hsplit hv
          (show _ = (s.before ++ o :: l) ++ p :: l' by rw [d.place, hl]; simp)
          (fun q hq hv => ?_) fun a ha => hup a ha (hne a ha)
        -- the outer operation has no results
        have hqo : q ≠ outer := by
          rintro rfl
          rw [s.results] at hv
          cases hv
        have hm : q ∈ s.before ∨ q ∈ l := by simpa [hqo] using hq
        exact List.mem_append.2 (hm.imp_right (List.mem_cons_of_mem o))
    by_cases hbody : b = s.team.body
    · subst hbody
      rw [s.team.ops] at hp
      have hcontent : p ∈ s.team.contents := by
        refine (List.mem_append.1 hp).resolve_right fun hm => hlast ?_
        rw [List.mem_singleton.1 hm]
        exact .refl _
      obtain ⟨l, l', hl⟩ := List.append_of_mem hcontent
      have heq : before ++ p :: after = l ++ p :: (l' ++ [s.team.last]) := by
        rw [← hsplit, s.team.ops, hl]
        simp
      obtain ⟨rfl, -⟩ := Position.split_unique (hsplit ▸ hc.ops.nodup _) heq
      have hinner' : ctx'.opsOf s.inner = before ++ p :: (l' ++ (barriers ++ [s.final])) := by
        rw [d.inner, hl]
        simp
      have hinner := hc.hasBlock_of_blockOf ((hc.ops.owner_iff o s.inner).2 (by simp [s.inner_ops]))
      refine (hc'.inScope_iff hinner').2 ?_
      rcases (hc.inScope_iff hsplit).1 hv with hv | ⟨q, hq, hv⟩ | ⟨a, ha, hv⟩
      · -- the block of the region is around the outer operation now
        refine .inr (.inr ⟨outer, d.holder h s.inner_holder, ?_⟩)
        refine (hc'.inScope_iff (show _ = [] ++ outer :: [s.team.last] from d.body)).2 (.inl ?_)
        rwa [d.evolves.args (hc.hasBlock_of_blockOf ((hc.ops.owner_iff p _).2 (by simp [hsplit])))]
      · exact .inr (.inl ⟨q, hq, by rwa [hres (b := s.team.body) (by simp [hsplit, hq])]⟩)
      · obtain rfl := Option.some.inj ((s.team.holder hc).symm.trans ha)
        rcases (hc.inScope_iff (show _ = [] ++ o :: [s.final] from s.inner_ops)).1 hv with
          hv | ⟨q, hq, -⟩ | ⟨a, ha, hv⟩
        · exact .inl (by rwa [d.evolves.args hinner])
        · cases hq
        · obtain rfl := Option.some.inj (s.inner_holder.symm.trans ha)
          refine .inr (.inr ⟨outer, d.holder h s.inner_holder, ?_⟩)
          exact ((ih o (above_content_before hc hcontent)).2 (.inl rfl) v hv).2
    by_cases hinner : b = s.inner
    · subst hinner
      rw [s.inner_ops] at hp
      obtain rfl : p = s.final := by simpa [ho] using hp
      have heq : before ++ s.final :: after = [o] ++ s.final :: [] := by
        rw [← hsplit, s.inner_ops]
        rfl
      obtain ⟨rfl, -⟩ := Position.split_unique (hsplit ▸ hc.ops.nodup _) heq
      refine d.evolves.inScope_of_split h d.sound hsplit hv
        (show _ = (s.team.contents ++ barriers) ++ s.final :: [] by rw [d.inner]; simp)
        (fun q hq hv => ?_) fun a ha => hup a ha ?_
      · rw [List.mem_singleton.1 hq, s.team.results] at hv
        cases hv
      · rw [s.inner_holder] at ha
        exact fun e => s.ne h (e ▸ (Option.some.inj ha).symm)
    · refine d.evolves.inScope_of_split h d.sound hsplit hv
        (by rw [d.other b hplace hbody hinner, hsplit]) (fun q hq _ => hq)
        fun a ha => hup a ha ?_
      rintro rfl
      exact hbody (s.team.eq_body hc ha)

/-! ## The invariant -/

/-- The last operation of a block stays so, unless it is the outer operation. -/
theorem getLast? (d : s.Done barriers ctx') {b : BlockRef} {last : OpRef}
    (hlast : (ctx.opsOf b).getLast? = some last) (hne : last ≠ outer) :
    (ctx'.opsOf b).getLast? = some last := by
  by_cases hplace : b = s.place
  · rw [hplace, s.place_ops] at hlast
    rw [hplace, d.place]
    exact Position.getLast?_replace hlast hne
  by_cases hbody : b = s.team.body
  · rw [hbody, s.team.ops, List.getLast?_concat] at hlast
    rw [hbody, d.body, ← hlast]
    rfl
  by_cases hinner : b = s.inner
  · rw [hinner, s.inner_ops] at hlast
    rw [hinner, d.inner, ← List.append_assoc, List.getLast?_concat, ← hlast]
    rfl
  · rwa [d.other b hplace hbody hinner]

theorem not_isTerminator (s : ctx.Swap o outer) : ¬(ctx.kindOf outer).isTerminator := by
  rcases s.kind with hkind | hkind <;> rw [hkind]
  · exact OpKind.loop_not_isTerminator
  · exact OpKind.conditional_not_isTerminator

theorem ne_of_isTerminator (s : ctx.Swap o outer) {p : OpRef}
    (hp : (ctx.kindOf p).isTerminator) : p ≠ outer := by
  rintro rfl
  exact not_isTerminator s hp

/-- What is discarded stays so. -/
theorem discarded (d : s.Done barriers ctx') {root : OpRef} (h : ctx.Stable root) {p : OpRef}
    (hp : ctx.Within p root) (hd : ctx.Discarded p) : ctx'.Discarded p := by
  obtain ⟨b, a, last, hb, ha, hlast, hw, hterm⟩ := h.discarded hp hd
  have hne := ne_of_isTerminator s hterm
  refine ⟨b, a, last, d.holder h.sound hb, ?_, d.getLast? hlast hne, d.within h.sound hw hne⟩
  rwa [d.evolves.kindOf (h.sound.coherent.hasOp_of_holder hb)]

theorem stable (d : s.Done barriers ctx') {root : OpRef} (h : ctx.Stable root)
    (hroot : ctx.Within o root) (hne : o ≠ root) : ctx'.Stable root := by
  have hc := h.sound.coherent
  have hex {p : OpRef} (hp : ctx.Within p root) : ctx.HasOp p := hc.hasOp_of_within' hp h.hasRoot
  have hbefore {p : OpRef} (hp : ctx'.Within p root) : p ∈ barriers ∨ ctx.Within p root :=
    d.within_before h.sound hroot hne hp
  have hlive (p : OpRef) (hp : ctx'.Within p root) : ¬ctx'.isErased p := by
    rcases hbefore hp with hm | hw
    · rw [(d.barriers p hm).2.live]
      exact Bool.false_ne_true
    · rw [d.erased]
      exact h.live p hw
  refine ⟨d.sound, d.evolves.hasOp h.hasRoot, ?_, hlive, fun p hp => ?_,
    fun p hp hneeds r hr b hb => ?_, fun p hp hkept v hv => ?_⟩
  · rw [d.blockOf_other h.sound h.hasRoot hne.symm, h.detached]
    · rintro rfl
      have hplace := (hc.ops.owner_iff root s.place).2 (by simp [s.place_ops])
      rw [h.detached] at hplace
      cases hplace
    · intro hm
      have hbody := (hc.ops.owner_iff root s.team.body).2 (by simp [s.team.ops, hm])
      rw [h.detached] at hbody
      cases hbody
  · rcases hbefore hp with hm | hw
    · exact (d.barriers p hm).2.shaped
    · exact d.evolves.shaped hc (hex hw) (hlive p hp) (h.shaped p hw)
  · rcases hbefore hp with hm | hw
    · rw [(d.barriers p hm).2.regions] at hr
      cases hr
    · rw [d.evolves.kindOf (hex hw)] at hneeds
      rw [d.evolves.regionsOf (hex hw)] at hr
      rw [d.evolves.blocksOf (hc.hasRegion_of_mem hr)] at hb
      obtain ⟨last, hlast, hterm⟩ := h.ended p hw hneeds r hr b hb
      refine ⟨last, d.getLast? hlast (ne_of_isTerminator s hterm), ?_⟩
      rwa [d.evolves.kindOf (hc.hasOp_of_mem (List.mem_of_getLast? hlast))]
  · rcases hbefore hp with hm | hw
    · rw [(d.barriers p hm).2.operands] at hv
      cases hv
    · rw [d.evolves.operandsOf (hlive p hp) (by rw [d.held])] at hv
      have hkept' : ¬ctx.Discarded p := fun hd => hkept (d.discarded h hw hd)
      refine (h.inScope p hw hkept' v hv).imp (fun hscope => ?_) (d.evolves.foreign hc)
      refine d.inScope h.sound ?_ (fun hlast => hkept' (s.team.discarded hc hlast)) hscope
      -- a region has no operands
      rintro rfl
      rw [s.team.operands] at hv
      cases hv

end Swap.Done

/-! ## The barrier -/

/-- Operations without parts were put into a block, in which the operations are `l`
    now. -/
structure Fenced (ctx : Context) (b : BlockRef) (barriers l : List OpRef) (ctx' : Context) :
    Prop where
  evolves : ctx.Evolves ctx'
  sound : ctx'.Sound
  opsOf : ∀ c, ctx'.opsOf c = if c = b then l else ctx.opsOf c
  held : ctx'.heldBy = ctx.heldBy
  erased : ctx'.isErased = ctx.isErased
  barriers : ∀ p ∈ barriers, ¬ctx.HasOp p ∧ ctx'.Bare .barrier p

theorem Created.not_mem {kind : OpKind} {o : OpRef} (h : ctx.Created kind o ctx')
    (hc : ctx.Coherent) (b : BlockRef) : o ∉ ctx'.opsOf b := by
  rw [h.opsOf]
  exact fun hm => h.isNew (hc.hasOp_of_mem hm)

/-- An operation that was just created is put into a block. -/
theorem Created.fenced {kind : OpKind} {o : OpRef} {b : BlockRef} {l : List OpRef}
    {ctx₁ : Context} (h : ctx.Created kind o ctx₁) (hkind : kind = .barrier) (hc : ctx.Sound)
    (hput : ctx₁.Put o b l ctx') : ctx.Fenced b [o] l ctx' where
  evolves := h.evolves.trans hput.relisted.evolves
  sound := h.sound.put hput fun t ht hw => by
    rw [h.holder] at ht
    by_cases hto : t = o
    · exact h.isNew (hto ▸ hc.coherent.hasOp_of_holder ht)
    · exact h.bare.not_within h.sound.coherent hto hw
  opsOf c := by
    rw [hput.opsOf]
    split
    · rfl
    · rw [filter_ne_self (h.not_mem hc.coherent c), h.opsOf]
  held := hput.relisted.heldBy.trans h.held
  erased := hput.relisted.erased.trans h.erased
  barriers p hp := by
    obtain rfl := List.mem_singleton.1 hp
    exact ⟨h.isNew, hkind ▸ h.bare.relisted hput.relisted⟩

theorem Fenced.refl (h : ctx.Sound) {b : BlockRef} : ctx.Fenced b [] (ctx.opsOf b) ctx where
  evolves := .refl ctx
  sound := h
  opsOf c := by
    split
    · rename_i hc
      rw [hc]
    · rfl
  held := rfl
  erased := rfl
  barriers := by simp

end Context

namespace Parallel

open Context

variable {e e' : Editor}

theorem insertBarrier_spec (h : e.context.Sound) {location : Location} {b : BlockRef}
    {before : List OpRef} {last : OpRef} (hb : e.context.opsOf b = before ++ [last])
    (hrun : insertBarrier e location b = .ok e') :
    ∃ barrier, e.context.Fenced b [barrier] (before ++ [barrier, last]) e'.context := by
  obtain ⟨last', hlast, hrun⟩ := Outcome.bind_eq_ok.1 hrun
  obtain ⟨-, rfl⟩ := terminator?_eq_ok hlast
  rw [hb, List.getLast?_concat] at hrun
  simp only [createOp_bare, Outcome.ok_bind] at hrun
  have hcreated := h.created location .barrier
  simp only [Editor.insertOpBefore, Outcome.bind_eq_ok, Outcome.pure_eq_ok] at hrun
  obtain ⟨ctx₁, hmove, rfl⟩ := hrun
  obtain ⟨c, before', after, hc, -, hops, hput⟩ := moveOpBefore_put hcreated.sound.coherent hmove
  have hbc : c = b := by
    have hlast : last ∈ e.context.opsOf b := by simp [hb]
    rw [hcreated.blockOf, (h.coherent.ops.owner_iff last b).2 hlast] at hc
    exact (Option.some.inj hc).symm
  subst hbc
  rw [filter_ne_self (hcreated.not_mem h.coherent c), hcreated.opsOf, hb] at hops
  obtain ⟨rfl, rfl⟩ := Position.split_unique (hb ▸ h.coherent.ops.nodup c) hops
  refine ⟨(e.context.addOp (.bare location .barrier)).2, ?_⟩
  rw [Editor.context_touch]
  exact hcreated.fenced rfl h hput

theorem insertBarrier_ok (h : e.context.Sound) (location : Location)
    {b : BlockRef} {before : List OpRef} {last : OpRef}
    (hb : e.context.opsOf b = before ++ [last]) :
    ∃ e', insertBarrier e location b = .ok e' ∧ (e.Recorded → e'.Recorded) := by
  have hlast : last ∈ e.context.opsOf b := by simp [hb]
  have hcreated := h.created location .barrier
  have hne : (e.context.addOp (.bare location .barrier)).2 ≠ last := fun e =>
    hcreated.isNew (e ▸ h.coherent.hasOp_of_mem hlast)
  have hblock := h.coherent.hasBlock_of_blockOf ((h.coherent.ops.owner_iff last b).2 hlast)
  rw [insertBarrier, terminator?_ok hblock, hb, List.getLast?_concat]
  simp only [createOp_bare, Outcome.ok_bind]
  obtain ⟨e', hmove, hrec'⟩ := Editor.moveOpBefore_ok (b := b)
    (e := e.withContext (e.context.addOp (.bare location .barrier)).1) hcreated.sound.coherent
    hcreated.bare.hasOp hne (by
      change last ∈ (e.context.addOp (.bare location .barrier)).1.opsOf b
      rwa [hcreated.opsOf])
  exact ⟨e', hmove, fun hrec => hrec' (hrec.withContext fun p hp => (hcreated.hasOp p).2 (.inl hp))⟩

/-! ## The swap -/

/-- What is in front of the last operation of a block without duplicates. -/
theorem filter_ne_last {before : List OpRef} {last : OpRef} (h : (before ++ [last]).Nodup) :
    (before ++ [last]).filter (· ≠ last) = before := by
  have hlast : last ∉ before := fun hm =>
    (List.nodup_append.1 h).2.2 last hm last List.mem_cons_self rfl
  rw [List.filter_append, filter_ne_self hlast]
  simp

/-- A region can be swapped wherever it is in a place for it. -/
theorem exists_swap (h : e.context.Sound) {o outer : OpRef} (s : e.context.Swap o outer)
    (withBarrier : Bool) :
    ∃ e' barriers, swap e o outer s.inner withBarrier = .ok e' ∧ (e.Recorded → e'.Recorded) ∧
      barriers.length = withBarrier.toNat ∧ s.Done barriers e'.context := by
  have hc := h.coherent
  have hne := s.ne h
  have houter : outer ∈ e.context.opsOf s.place := by simp [s.place_ops]
  have hregion : o ∈ e.context.opsOf s.inner := by simp [s.inner_ops]
  have hne' : s.place ≠ s.inner := s.place_ne_inner h
  have hbody_inner := s.body_ne_inner h
  have hbody_place := s.body_ne_place h
  -- the region stands in front of the outer operation now
  obtain ⟨e₁, hmove, hrec₁⟩ := Editor.moveOpBefore_ok hc s.team.hasOp hne houter
  obtain ⟨place, before, after, hplace, -, hops, hput₁⟩ :=
    moveOpBefore_put hc (Editor.moveOpBefore_eq_ok hmove)
  obtain rfl := hc.ops.owner_unique ((hc.ops.owner_iff outer place).1 hplace) houter
  rw [filter_ne_self (hc.not_mem_of_ne hregion hne'), s.place_ops] at hops
  have hplace_nodup := hc.ops.nodup s.place
  rw [s.place_ops] at hplace_nodup
  obtain ⟨rfl, rfl⟩ := Position.split_unique hplace_nodup hops
  have hsound₁ : e₁.context.Sound := h.put hput₁ fun t ht hw => by
    rw [← s.above_outer hc] at ht
    exact h.grounded.not_within_above ht (hw.trans (within_of_above (s.above_region hc)))
  have hops₁ (b : BlockRef) (hb : b ≠ s.place) (hb' : b ≠ s.inner) :
      e₁.context.opsOf b = e.context.opsOf b := by
    rw [hput₁.opsOf, if_neg hb, filter_ne_self (hc.not_mem_of_ne hregion hb')]
  have hplace₁ : e₁.context.opsOf s.place = s.before ++ o :: outer :: s.after := by
    rw [hput₁.opsOf, if_pos rfl]
  have hinner₁ : e₁.context.opsOf s.inner = [s.final] := by
    have hnodup := hc.ops.nodup s.inner
    rw [s.inner_ops] at hnodup
    have hfinal : s.final ≠ o := fun e => by simp [e] at hnodup
    rw [hput₁.opsOf, if_neg hne'.symm, s.inner_ops]
    simp [hfinal]
  have hbody₁ : e₁.context.opsOf s.team.body = s.team.contents ++ [s.team.last] :=
    (hops₁ s.team.body hbody_place hbody_inner).trans s.team.ops
  have hbody : e₁.context.blockAt o 0 = .ok s.team.body := by
    refine hsound₁.coherent.blockAt_ok (r := s.team.region) ?_ ?_
    · rw [hput₁.relisted.evolves.regionsOf s.team.hasOp]
      simp [s.team.regions]
    · rw [hput₁.relisted.evolves.blocksOf (hc.hasRegion_of_mem (o := o) (by simp [s.team.regions]))]
      simp [s.team.blocks]
  have hcontents (p : OpRef) (hp : p ∈ s.team.contents) : p ∈ e₁.context.opsOf s.team.body := by
    simp [hbody₁, hp]
  have hlast₁ : s.team.last ∈ e₁.context.opsOf s.team.body := by simp [hbody₁]
  have hblock₁ (p : OpRef) (hp : p = o ∨ p = outer) : e₁.context.blockOf p = some s.place := by
    refine (hsound₁.coherent.ops.owner_iff p s.place).2 ?_
    rw [hplace₁]
    rcases hp with rfl | rfl <;> simp
  obtain ⟨row, hrow⟩ := hasBlock_iff.1 (hsound₁.coherent.hasBlock_of_blockOf
    ((hsound₁.coherent.ops.owner_iff _ _).2 hlast₁))
  have hnodup := hc.ops.nodup s.team.body
  rw [s.team.ops] at hnodup
  have hrow' : row.ops.filter (· ≠ s.team.last) = s.team.contents := by
    rw [show row.ops = s.team.contents ++ [s.team.last] from
      (readBlock_of_block hrow _ _).symm.trans hbody₁, filter_ne_last hnodup]
  -- what was in the region stands in front of the final operation now
  have hcontents_nodup := (List.nodup_append.1 hnodup).1
  have hcontents_new (p : OpRef) (hp : p ∈ s.team.contents) : p ∉ e₁.context.opsOf s.inner :=
    hsound₁.coherent.not_mem_of_ne (hcontents p hp) hbody_inner.symm
  obtain ⟨e₂, hgather, hrec₂, hgathered⟩ := Editor.moveOpsToStart_gathered hsound₁
    (hput₁.relisted.inPlace.hasBlock.2 (hc.hasBlock_of_holder s.inner_holder))
    (fun p hp => hsound₁.coherent.hasOp_of_mem (hcontents p hp)) hcontents_nodup hcontents_new
    (fun t ht p hp hw => by
      rw [hput₁.relisted.inPlace.holder, s.inner_holder] at ht
      obtain rfl := Option.some.inj ht
      have habove : e₁.context.above p = some o := by
        rw [hsound₁.coherent.above_of_mem (hcontents p hp), hput₁.relisted.inPlace.holder]
        exact s.team.holder hc
      exact hne.symm (hsound₁.eq_of_within_of_blockOf (hblock₁ _ (.inr rfl)) (hblock₁ _ (.inl rfl))
        (hw.trans (within_of_above habove))))
  have hops₂ (b : BlockRef) (hb : b ≠ s.team.body) (hb' : b ≠ s.inner) :
      e₂.context.opsOf b = e₁.context.opsOf b := by
    rw [hgathered.opsOf, if_neg hb', List.filter_eq_self]
    intro p hp
    rw [decide_eq_true_eq]
    exact fun hm => hsound₁.coherent.not_mem_of_ne (hcontents p hm) hb hp
  have hbody₂ : e₂.context.opsOf s.team.body = [s.team.last] := by
    have hlast : s.team.last ∉ s.team.contents := fun hm =>
      (List.nodup_append.1 hnodup).2.2 _ hm _ List.mem_cons_self rfl
    rw [hgathered.opsOf, if_neg hbody_inner, hbody₁, List.filter_append]
    simp [hlast]
  have hinner₂ : e₂.context.opsOf s.inner = s.team.contents ++ [s.final] := by
    rw [hgathered.opsOf, if_pos rfl, hinner₁]
  obtain ⟨opRow, hopRow⟩ := hasOp_iff.1 (hgathered.relisted.inPlace.hasOp.2
    (hput₁.relisted.inPlace.hasOp.2 s.team.hasOp))
  obtain ⟨e₃, barriers, hfence, hrec₃, hcount, hfenced⟩ : ∃ (e₃ : Editor) (barriers : List OpRef),
      (if withBarrier then insertBarrier e₂ opRow.location s.inner else pure e₂) = .ok e₃ ∧
        (e₂.Recorded → e₃.Recorded) ∧ barriers.length = withBarrier.toNat ∧
          e₂.context.Fenced s.inner barriers
            (s.team.contents ++ (barriers ++ [s.final])) e₃.context := by
    cases withBarrier with
    | false =>
      refine ⟨e₂, [], rfl, id, rfl, ?_⟩
      rw [List.nil_append, ← hinner₂]
      exact .refl hgathered.sound
    | true =>
      obtain ⟨e₃, hfence, hrec₃⟩ := insertBarrier_ok hgathered.sound opRow.location hinner₂
      obtain ⟨barrier, hfenced⟩ := insertBarrier_spec hgathered.sound hinner₂ hfence
      exact ⟨e₃, [barrier], hfence, hrec₃, rfl, hfenced⟩
  -- the outer operation moves into the region last
  have hc₃ := hfenced.sound.coherent
  have hbody₃ : e₃.context.opsOf s.team.body = [s.team.last] := by
    rw [hfenced.opsOf, if_neg hbody_inner, hbody₂]
  have hplace₃ : e₃.context.opsOf s.place = s.before ++ o :: outer :: s.after := by
    rw [hfenced.opsOf, if_neg hne', hops₂ s.place hbody_place.symm hne', hplace₁]
  have houter₃ : outer ∈ e₃.context.opsOf s.place := by simp [hplace₃]
  have hlast₃ : s.team.last ∈ e₃.context.opsOf s.team.body := by simp [hbody₃]
  have hlast_ne : outer ≠ s.team.last := by
    intro e
    rw [← e] at hlast₃
    exact hc₃.not_mem_of_ne houter₃ hbody_place hlast₃
  obtain ⟨e₄, hmove₄, hrec₄⟩ := Editor.moveOpBefore_ok hc₃ (hc₃.hasOp_of_mem houter₃)
    hlast_ne hlast₃
  obtain ⟨b, before', after', hb, -, hops', hput₄⟩ :=
    moveOpBefore_put hc₃ (Editor.moveOpBefore_eq_ok hmove₄)
  obtain rfl : b = s.team.body := Option.some.inj
    (hb.symm.trans ((hc₃.ops.owner_iff _ _).2 hlast₃))
  rw [filter_ne_self (hc₃.not_mem_of_ne houter₃ hbody_place), hbody₃] at hops'
  obtain ⟨rfl, rfl⟩ :=
    Position.split_unique (show ([] ++ s.team.last :: []).Nodup by simp) hops'
  have hin₃ : e.context.Evolves e₃.context :=
    (hput₁.relisted.evolves.trans hgathered.relisted.evolves).trans hfenced.evolves
  have hrun : swap e o outer s.inner withBarrier = .ok e₄ := by
    have hterminator := terminator?_ok (hasBlock_iff.2 ⟨row, hrow⟩)
    rw [hbody₁, List.getLast?_concat] at hterminator
    simp only [swap, hmove, Outcome.ok_bind, hbody, hterminator, hrow, hrow', hgather, hopRow]
    cases withBarrier with
    | false =>
      obtain rfl := Except.ok.inj hfence
      exact hmove₄
    | true => exact Outcome.bind_eq_ok.2 ⟨e₃, hfence, hmove₄⟩
  refine ⟨e₄, barriers, hrun, fun hrec => hrec₄ (hrec₃ (hrec₂ (hrec₁ hrec))), hcount,
    hin₃.trans hput₄.relisted.evolves, ?_, ?_, ?_, ?_,
    fun b h₁ h₂ h₃ => ?_, ?_, ?_, fun p hp => ⟨fun hex => ?_, ?_⟩⟩
  · refine hfenced.sound.put hput₄ fun t ht hw => ?_
    rw [hin₃.holder hc (s.team.holder hc)] at ht
    obtain rfl := Option.some.inj ht
    exact hne (hfenced.sound.eq_of_within_of_blockOf
      ((hc₃.ops.owner_iff _ _).2 (by simp [hplace₃])) ((hc₃.ops.owner_iff _ _).2 houter₃) hw)
  · rw [List.nodup_append, List.nodup_cons] at hplace_nodup
    have hbefore : outer ∉ s.before := fun hm =>
      hplace_nodup.2.2 _ hm _ List.mem_cons_self rfl
    rw [hput₄.opsOf, if_neg hbody_place.symm, hplace₃, List.filter_append, filter_ne_self hbefore,
      List.filter_cons_of_pos (by simpa using hne), List.filter_cons_of_neg (by simp),
      filter_ne_self hplace_nodup.2.1.1]
  · rw [hput₄.opsOf, if_pos rfl, List.nil_append]
  · rw [hput₄.opsOf, if_neg hbody_inner.symm, filter_ne_self (hc₃.not_mem_of_ne houter₃ hne'.symm),
      hfenced.opsOf, if_pos rfl]
  · rw [hput₄.opsOf, if_neg h₂, filter_ne_self (hc₃.not_mem_of_ne houter₃ h₁), hfenced.opsOf,
      if_neg h₃, hops₂ b h₂ h₃, hops₁ b h₁ h₃]
  · rw [hput₄.relisted.heldBy, hfenced.held, hgathered.relisted.heldBy, hput₁.relisted.heldBy]
  · rw [hput₄.relisted.erased, hfenced.erased, hgathered.relisted.erased, hput₁.relisted.erased]
  · exact (hfenced.barriers p hp).1
      ((hput₁.relisted.evolves.trans hgathered.relisted.evolves).hasOp hex)
  · exact (hfenced.barriers p hp).2.relisted hput₄.relisted

theorem swap_spec (h : e.context.Sound) {o outer : OpRef} {inner : BlockRef} {final : OpRef}
    {withBarrier : Bool} (team : e.context.Team o)
    (hinner : e.context.opsOf inner = [o, final])
    (hfirst : ∃ r, (e.context.regionsOf outer)[0]? = some r ∧
      (e.context.blocksOf r).head? = some inner)
    (hkind : e.context.kindOf outer = .loop ∨ e.context.kindOf outer = .conditional)
    (hresults : e.context.results outer = [])
    (hrun : swap e o outer inner withBarrier = .ok e') :
    ∃ (s : e.context.Swap o outer) (barriers : List OpRef),
      barriers.length = withBarrier.toNat ∧ s.Done barriers e'.context := by
  have hc := h.coherent
  have hholder : e.context.holder inner = some outer := by
    obtain ⟨r, hr, hb⟩ := hfirst
    exact hc.holder_of_mem (List.mem_of_getElem? hr) (List.mem_of_head? hb)
  -- that the region could be moved tells where the outer operation is
  obtain ⟨e₁, hmove, -⟩ := Outcome.bind_eq_ok.1 hrun
  obtain ⟨place, before, after, hplace, hne, hops, -⟩ :=
    moveOpBefore_put hc (Editor.moveOpBefore_eq_ok hmove)
  have hne' : place ≠ inner := by
    rintro rfl
    exact h.grounded.not_within_above
      ((hc.above_of_mem ((hc.ops.owner_iff outer place).1 hplace)).trans hholder) (.refl outer)
  rw [filter_ne_self (hc.not_mem_of_ne (b := inner) (by simp [hinner]) hne')] at hops
  let s : e.context.Swap o outer :=
    ⟨team, place, before, after, hops, inner, final, hinner, hholder, hfirst, hkind, hresults⟩
  obtain ⟨e₂, barriers, hrun', -, hcount, d⟩ := exists_swap h s withBarrier
  obtain rfl := Except.ok.inj (hrun'.symm.trans hrun)
  exact ⟨s, barriers, hcount, d⟩

/-! ## The patterns -/

theorem soleParent?_spec {ctx : Context} {o outer : OpRef}
    (hrun : soleParent? ctx o = .ok (some outer)) :
    ctx.kindOf o = .parallel ∧ (∃ b, ctx.blockOf o = some b ∧ (ctx.opsOf b).length = 2) ∧
      ctx.above o = some outer ∧ ctx.results outer = [] := by
  rw [soleParent?] at hrun
  obtain ⟨answer, hkind, hrun⟩ := Outcome.bind_eq_ok.1 hrun
  obtain ⟨-, rfl⟩ := isKind_eq_ok hkind
  by_cases hparallel : ctx.kindOf o = .parallel
  · simp only [hparallel, decide_true, Bool.not_true, Bool.false_eq_true, if_false,
      Outcome.bind_eq_ok] at hrun
    obtain ⟨row, hrow, hrun⟩ := hrun
    have hparent : ctx.blockOf o = row.parent := readOp_of_op hrow _ _
    cases hb : row.parent with
    | none => simp [hb] at hrun
    | some b =>
      simp only [hb, Outcome.bind_eq_ok] at hrun
      obtain ⟨block, hblock, hrun⟩ := hrun
      have hops : ctx.opsOf b = block.ops := readBlock_of_block hblock _ _
      split at hrun
      · simp at hrun
      · rename_i hlength
        obtain ⟨parent, hp, hrun⟩ := Outcome.bind_eq_ok.1 hrun
        obtain ⟨-, rfl⟩ := parentOp_eq_ok hp
        cases habove : ctx.above o with
        | none => simp [habove] at hrun
        | some a =>
          simp only [habove, Outcome.pure_eq_ok] at hrun
          split at hrun
          · rename_i hresults
            obtain rfl := Option.some.inj hrun
            exact ⟨hparallel, ⟨b, hparent.trans hb, by rw [hops]; exact not_not.1 hlength⟩, rfl,
              List.isEmpty_iff.1 hresults⟩
          · cases hrun
  · simp [hparallel] at hrun

/-- Where a region is alone with the terminator behind it. -/
theorem inner_ops {ctx : Context} {root o : OpRef} {b : BlockRef} (h : ctx.Stable root)
    (hkind : ctx.kindOf o = .parallel) (hb : ctx.blockOf o = some b)
    (hlength : (ctx.opsOf b).length = 2) (hended : ctx.Ended b) :
    ∃ final, ctx.opsOf b = [o, final] := by
  obtain ⟨p, final, hops⟩ := List.length_eq_two.1 hlength
  have ho := (h.sound.coherent.ops.owner_iff o b).1 hb
  obtain ⟨last, hlast, hterm⟩ := hended
  rw [hops] at hlast ho
  obtain rfl := Option.some.inj hlast
  rcases List.mem_pair.1 ho with rfl | rfl
  · exact ⟨final, hops⟩
  · refine absurd (?_ : OpKind.parallel.isTerminator) OpKind.parallel_not_isTerminator
    rw [← hkind]
    exact hterm

section

variable {root o : OpRef} (h : e.context.Stable root) (ho : e.context.Within o root)
  (hne : o ≠ root)

include h ho hne

omit h in
theorem within_sole {outer : OpRef} (habove : e.context.above o = some outer) :
    e.context.Within outer root := by
  obtain ⟨t, ht, hw⟩ := (within_iff_above.1 ho).resolve_left hne
  exact Option.some.inj (habove.symm.trans ht) ▸ hw

/-- A region that is alone in a loop is in the block of the loop. -/
theorem loop_inner {outer : OpRef} (hsole : soleParent? e.context o = .ok (some outer))
    (hloop : e.context.kindOf outer = .loop) :
    ∃ inner final, e.context.blockAt outer 0 = .ok inner ∧
      e.context.opsOf inner = [o, final] := by
  have hc := h.sound.coherent
  obtain ⟨hkind, ⟨b, hb, hlength⟩, habove, -⟩ := soleParent?_spec hsole
  obtain ⟨r, c, hr, hblocks, hended⟩ := h.loop_block (within_sole ho hne habove) hloop
  have hholder : e.context.holder b = some outer := by
    rw [above, hb] at habove
    exact habove
  -- a loop has only one block
  have hbc : b = c := by
    obtain ⟨r', hr', howner⟩ := Option.bind_eq_some_iff.1 hholder
    have hmem := (hc.regions.owner_iff r' outer).1 howner
    rw [hr, List.mem_singleton] at hmem
    have hb' := (hc.blocks.owner_iff b r').1 hr'
    rwa [hmem, hblocks, List.mem_singleton] at hb'
  obtain ⟨final, hops⟩ := inner_ops h hkind hb hlength (hbc ▸ hended)
  exact ⟨b, final, hc.blockAt_ok (r := r) (by simp [hr]) (by simp [hblocks, hbc]), hops⟩

/-- A conditional has a first branch, and a region that is alone there stands before a
    terminator. -/
theorem branch_inner {outer : OpRef} (hsole : soleParent? e.context o = .ok (some outer))
    (hconditional : e.context.kindOf outer = .conditional) :
    ∃ inner, e.context.blockAt outer 0 = .ok inner ∧
      (e.context.blockOf o = some inner → ∃ final, e.context.opsOf inner = [o, final]) := by
  obtain ⟨hkind, ⟨b, hb, hlength⟩, habove, -⟩ := soleParent?_spec hsole
  obtain ⟨r, rest, c, hr, hblocks, hended⟩ :=
    h.branch_block (within_sole ho hne habove) hconditional
  refine ⟨c, h.sound.coherent.blockAt_ok (r := r) (by simp [hr]) (by simp [hblocks]), fun hc => ?_⟩
  obtain rfl := Option.some.inj (hb.symm.trans hc)
  exact inner_ops h hkind hb hlength hended

/-- Where a region leaves a loop, a barrier is put into the loop. -/
theorem leaveLoop?_spec (hrun : leaveLoop? e o = .ok (some e')) :
    ∃ (outer : OpRef) (s : e.context.Swap o outer) (barrier : OpRef),
      e.context.kindOf outer = .loop ∧ s.Done [barrier] e'.context := by
  obtain ⟨sole, hsole, hrun⟩ := Outcome.bind_eq_ok.1 hrun
  cases sole with
  | none => simp at hrun
  | some outer =>
    obtain ⟨hkind, -, -, hresults⟩ := soleParent?_spec hsole
    simp only [Outcome.bind_eq_ok] at hrun
    obtain ⟨answer, hloop, hrun⟩ := hrun
    obtain ⟨-, rfl⟩ := isKind_eq_ok hloop
    split at hrun
    · simp at hrun
    rename_i hloop
    have hloop : e.context.kindOf outer = .loop := by simpa using hloop
    obtain ⟨hollow, -, hrun⟩ := Outcome.bind_eq_ok.1 hrun
    split at hrun
    · simp at hrun
    simp only [Outcome.bind_eq_ok, Outcome.pure_eq_ok, Option.some.injEq] at hrun
    obtain ⟨b, hb, e₁, hswap, rfl⟩ := hrun
    obtain ⟨inner, final, hinner, hops⟩ := loop_inner h ho hne hsole hloop
    obtain rfl := Except.ok.inj (hb.symm.trans hinner)
    obtain ⟨team⟩ := h.nonempty_team ho hkind
    obtain ⟨s, barriers, hcount, d⟩ :=
      swap_spec h.sound team hops (blockAt_eq_ok hb) (.inl hloop) hresults hswap
    obtain ⟨barrier, rfl⟩ := List.length_eq_one_iff.1 hcount
    exact ⟨outer, s, barrier, hloop, d⟩

/-- Where a region leaves a conditional, nothing is added. -/
theorem leaveConditional?_spec (hrun : leaveConditional? e o = .ok (some e')) :
    ∃ (outer : OpRef) (s : e.context.Swap o outer),
      e.context.kindOf outer = .conditional ∧ s.Done [] e'.context := by
  obtain ⟨sole, hsole, hrun⟩ := Outcome.bind_eq_ok.1 hrun
  cases sole with
  | none => simp at hrun
  | some outer =>
    obtain ⟨hkind, -, -, hresults⟩ := soleParent?_spec hsole
    simp only [Outcome.bind_eq_ok] at hrun
    obtain ⟨answer, hconditional, hrun⟩ := hrun
    obtain ⟨-, rfl⟩ := isKind_eq_ok hconditional
    split at hrun
    · simp at hrun
    rename_i hconditional
    have hconditional : e.context.kindOf outer = .conditional := by simpa using hconditional
    simp only [Outcome.bind_eq_ok] at hrun
    obtain ⟨b, hb, row, hrow, hrun⟩ := hrun
    split at hrun
    · simp at hrun
    rename_i hbranch
    have hparent : e.context.blockOf o = some b :=
      (readOp_of_op hrow _ _).trans (not_not.1 hbranch)
    obtain ⟨hollow, -, hrun⟩ := Outcome.bind_eq_ok.1 hrun
    split at hrun
    · simp at hrun
    simp only [Outcome.bind_eq_ok, Outcome.pure_eq_ok, Option.some.injEq] at hrun
    obtain ⟨e₁, hswap, rfl⟩ := hrun
    obtain ⟨inner, hinner, hfinal⟩ := branch_inner h ho hne hsole hconditional
    obtain rfl := Except.ok.inj (hb.symm.trans hinner)
    obtain ⟨final, hops⟩ := hfinal hparent
    obtain ⟨team⟩ := h.nonempty_team ho hkind
    obtain ⟨s, barriers, hcount, d⟩ :=
      swap_spec h.sound team hops (blockAt_eq_ok hb) (.inr hconditional) hresults hswap
    obtain rfl := List.length_eq_zero_iff.1 hcount
    exact ⟨outer, s, hconditional, d⟩

end

end Parallel

end Offload
