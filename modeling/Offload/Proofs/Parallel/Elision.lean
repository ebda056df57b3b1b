import Offload.Proofs.Parallel.Serial
import Offload.Proofs.Parallel.Step

/-!
# Serial elision along a run

No step of the parallel patterns changes the serial elision of a program, up to the names
of values: what moves into a region has new values (`Renaming`). For every operation that
has a part in the elision the statement is about the operation before and after the step,
by induction on the levels below it. The blocks that a step changes list other operations
afterwards, with the same elision in all.
-/

namespace Offload

namespace Context

variable {α : Type} {ctx ctx' : Context} {root o : OpRef} {name : ValueRef → α}
  {ρ : ValueRef → ValueRef} {n : Nat} {l : List (Serial α)}

/-- An operation that was there has the same elision if its blocks do. -/
theorem Evolves.serializes (hev : ctx.Evolves ctx') (hc : ctx.Coherent) (hc' : ctx'.Coherent)
    (ho : ctx.HasOp o) (hresults : ∀ v ∈ ctx.results o, ρ v = v)
    (hargs : ∀ b, ctx.holder b = some o → ∀ v ∈ ctx.args b, ρ v = v)
    (hoperands : ctx'.operandsOf o = (ctx.operandsOf o).map ρ)
    (hblocks : ∀ b, ctx.holder b = some o → ∀ l, ctx.Elided (name ∘ ρ) n (ctx.kept b) l →
      ctx'.Serializes name (ctx'.kept b) l)
    (h : ctx.serialWithin (name ∘ ρ) (n + 1) o = .ok l) : ctx'.Serializes name [o] l := by
  have hfix {vs : List ValueRef} (hvs : ∀ v ∈ vs, ρ v = v) :
      vs.map name = vs.map (name ∘ ρ) :=
    List.map_congr_left fun v hv => congrArg name (hvs v hv).symm
  refine .of_elision hc' (hev.hasOp ho) (((serialWithin_succ_iff hc).1 h).2.alike
    ⟨hev.kindOf ho, hev.readOp ho _ _ fun _ => rfl, hev.readOp ho _ _ fun _ => rfl, ?_, ?_, ?_⟩)
  · rw [hev.results ho, hfix hresults]
  · rw [hoperands, List.map_map]
  · rw [hev.regionsOf ho]
    refine List.forall₂_same.2 fun r hr => ?_
    rw [hev.blocksOf (hc.hasRegion_of_mem hr)]
    refine List.forall₂_same.2 fun b hb => ?_
    have hholder := hc.holder_of_mem hr hb
    have hex := hc.hasBlock_of_mem hb
    exact ⟨by rw [hev.args hex, hfix (hargs b hholder)], hev.readBlock hex _ _ fun _ => rfl,
      hblocks b hholder⟩

theorem Evolves.kept (hev : ctx.Evolves ctx') (hc : ctx.Coherent) {b : BlockRef}
    (hb : ctx.holder b = some o) (hops : ctx'.opsOf b = ctx.opsOf b) :
    ctx'.kept b = ctx.kept b := by
  rw [Context.kept, Context.kept, hev.holder hc hb, hb, Option.any_some, Option.any_some,
    hev.kindOf (hc.hasOp_of_holder hb), hops]

/-- What is behind an operation that is not a terminator, as far as it is kept, is kept
    whatever comes before it. -/
theorem Stable.exists_kept_split (h : ctx.Stable root) {p : OpRef} (hp : ctx.Within p root)
    {b : BlockRef} (hb : ctx.holder b = some p) {before after : List OpRef}
    (hops : ctx.opsOf b = before ++ o :: after) (ho : ¬(ctx.kindOf o).isTerminator) :
    ∃ rest, ctx.kept b = before ++ o :: rest ∧ ∀ ctx' os, ctx.Evolves ctx' →
      ctx'.opsOf b = os ++ after → ctx'.kept b = os ++ rest := by
  have hc := h.sound.coherent
  by_cases hkind : ctx.kindOf p = .parallel
  · obtain ⟨r, hr, howner⟩ := Option.bind_eq_some_iff.1 hb
    obtain ⟨last, hlast, hterm⟩ := h.ended p hp (by rw [hkind]; decide) r
      ((hc.regions.owner_iff r p).1 howner) b ((hc.blocks.owner_iff b r).1 hr)
    rcases List.eq_nil_or_concat after with rfl | ⟨rest, last', rfl⟩
    · rw [hops, List.getLast?_concat] at hlast
      exact absurd (Option.some.inj hlast ▸ hterm) ho
    · refine ⟨rest, ?_, fun ctx' os hev hops' => ?_⟩
      · rw [kept_of_parallel hb hkind, hops, List.concat_eq_append, ← List.cons_append,
          ← List.append_assoc, List.dropLast_concat]
      · rw [kept_of_parallel (hev.holder hc hb) ((hev.kindOf (hc.hasOp_of_holder hb)).trans hkind),
          hops', List.concat_eq_append, ← List.append_assoc, List.dropLast_concat]
  · refine ⟨after, (kept_of_ne hb hkind).trans hops, fun ctx' os hev hops' => ?_⟩
    refine (kept_of_ne (hev.holder hc hb) ?_).trans hops'
    rwa [hev.kindOf (hc.hasOp_of_holder hb)]

/-- The elision of a parallel region is that of what is kept in its body. -/
theorem Team.elided (t : ctx.Team o) (hc : ctx.Coherent)
    (h : ctx.serialWithin name n o = .ok l) : ctx.Elided name n (ctx.kept t.body) l := by
  cases n with
  | zero => simp [serialWithin] at h
  | succ n =>
    have ht := t.kind
    rcases ((serialWithin_succ_iff hc).1 h).2 with hkind | ⟨-, hr, hb, hl⟩ | ⟨-, hkind, -⟩
    · rw [ht] at hkind
      exact absurd hkind (by decide)
    · rw [t.regions] at hr
      obtain rfl := Option.some.inj hr
      rw [t.blocks] at hb
      obtain rfl := Option.some.inj hb
      exact Elided.mono hc (Nat.le_succ n) hl
    · exact absurd ht hkind

theorem Team.serializes (t : ctx.Team o) (hc : ctx.Coherent) (hc' : ctx'.Coherent)
    (hev : ctx.Evolves ctx') (h : ctx'.Serializes name (ctx'.kept t.body) l) :
    ctx'.Serializes name [o] l := by
  refine .of_elision hc' (hev.hasOp t.hasOp) (.parallel ((hev.kindOf t.hasOp).trans t.kind)
    (r := t.region) (b := t.body) ?_ ?_ h)
  · rw [hev.regionsOf t.hasOp, t.regions]
    rfl
  · rw [hev.blocksOf (hc.hasRegion_of_mem (o := o) (by simp [t.regions])), t.blocks]
    rfl

theorem Team.kept (t : ctx.Team o) (hc : ctx.Coherent) : ctx.kept t.body = t.contents := by
  rw [kept_of_parallel (t.holder hc) t.kind, t.ops, List.dropLast_concat]

/-- Barriers have no part in an elision. -/
theorem serializes_barriers (hc : ctx.Coherent) {barriers : List OpRef}
    (h : ∀ p ∈ barriers, ctx.Bare .barrier p) : ctx.Serializes name barriers [] := by
  induction barriers with
  | nil => exact .nil
  | cons p barriers ih =>
    have hp := h p List.mem_cons_self
    exact (Serializes.of_elision hc hp.hasOp (.barrier hp.kind)).cons hc
      (ih fun q hq => h q (List.mem_cons_of_mem p hq))

/-! ## Swaps -/

theorem Swap.Done.serializes {outer : OpRef} {s : ctx.Swap o outer} {barriers : List OpRef}
    (d : s.Done barriers ctx') (h : ctx.Stable root) (hroot : ctx.Within o root) {p : OpRef}
    (hp : ctx.Within p root) (hne : p ≠ o)
    (hl : ctx.serialWithin name n p = .ok l) : ctx'.Serializes name [p] l := by
  have hc := h.sound.coherent
  have hc' := d.sound.coherent
  induction n generalizing p l with
  | zero => simp [serialWithin] at hl
  | succ n ih =>
    have hex : ctx.HasOp p := hc.hasOp_of_within' hp h.hasRoot
    have hlive : ¬ctx'.isErased p := by
      rw [d.erased]
      exact h.live p hp
    refine d.evolves.serializes (ρ := id) hc hc' hex (fun _ _ => rfl) (fun _ _ _ _ => rfl) ?_
      (fun b hb l (hkept : ctx.Elided name n _ l) => ?_) hl
    · rw [d.evolves.operandsOf hlive (by rw [d.held]), List.map_id]
    -- what is kept in a block of the operation has the same elision
    have hin {q : OpRef} {c : BlockRef} {a : OpRef} (ha : ctx.Within a root)
        (hc' : ctx.holder c = some a) (hq : q ∈ ctx.opsOf c) : ctx.Within q root :=
      (within_of_above ((hc.above_of_mem hq).trans hc')).trans ha
    have hregion {q : OpRef} {c : BlockRef} (hq : q ∈ ctx.opsOf c) (hne : c ≠ s.inner) :
        q ≠ o := by
      rintro rfl
      exact hne (hc.ops.owner_unique hq (by simp [s.inner_ops]))
    have hall {os : List OpRef} (hos : ∀ q ∈ os, ctx.Within q root ∧ q ≠ o)
        {l : List (Serial α)} (hl : ctx.Elided name n os l) : ctx'.Serializes name os l :=
      .of_forall hc' (fun q hq l hl => ih (hos q hq).1 (hos q hq).2 hl) hl
    by_cases hbody : b = s.team.body
    · subst hbody
      exact absurd (Option.some.inj ((s.team.holder hc).symm.trans hb)).symm hne
    by_cases hinner : b = s.inner
    · -- what was in the region stands in its place
      subst hinner
      obtain rfl := Option.some.inj (s.inner_holder.symm.trans hb)
      have hkind : ctx.kindOf outer ≠ .parallel := by
        rcases s.kind with hkind | hkind <;> rw [hkind] <;> decide
      rw [kept_of_ne hb hkind, s.inner_ops] at hkept
      rw [kept_of_ne (d.holder h.sound hb) (by rwa [d.evolves.kindOf hex]), d.inner]
      obtain ⟨l₁, l₂, h₁, h₂, rfl⟩ := Elided.cons_iff.1 hkept
      have hcontents := s.team.elided hc h₁
      rw [s.team.kept hc] at hcontents
      refine (hall (fun q hq => ?_) hcontents).append hc'
        ((serializes_barriers hc' fun q hq => (d.barriers q hq).2).append hc'
          (hall (fun q hq => ?_) h₂))
      · have hmem : q ∈ ctx.opsOf s.team.body := by simp [s.team.ops, hq]
        exact ⟨hin hroot (s.team.holder hc) hmem, hregion hmem (Ne.symm hbody)⟩
      · obtain rfl := List.mem_singleton.1 hq
        have hnodup := hc.ops.nodup s.inner
        rw [s.inner_ops, List.nodup_cons] at hnodup
        refine ⟨hin hp hb (by simp [s.inner_ops]), fun e => hnodup.1 ?_⟩
        rw [e]
        exact List.mem_cons_self
    by_cases hplace : b = s.place
    · -- the region has the outer operation in it
      subst hplace
      obtain ⟨rest, hsplit, hsplit'⟩ :=
        h.exists_kept_split hp hb s.place_ops (Swap.Done.not_isTerminator s)
      have hmem (q : OpRef) (hq : q ∈ s.before ++ outer :: rest) : ctx.Within q root ∧ q ≠ o := by
        have hmem := mem_opsOf_of_mem_kept (hsplit ▸ hq)
        exact ⟨hin hp hb hmem, hregion hmem (s.place_ne_inner h.sound)⟩
      rw [hsplit] at hkept
      rw [hsplit' ctx' (s.before ++ [o]) d.evolves (by rw [d.place]; simp)]
      obtain ⟨l₁, _, h₁, htail, rfl⟩ := Elided.append_iff.1 hkept
      obtain ⟨l₂, l₃, h₂, h₃, rfl⟩ := Elided.cons_iff.1 htail
      have houter := hmem outer (by simp)
      have hregion : ctx'.Serializes name [o] l₂ := by
        refine s.team.serializes hc hc' d.evolves ?_
        rw [kept_of_parallel (d.holder h.sound (s.team.holder hc))
          ((d.evolves.kindOf s.team.hasOp).trans s.team.kind), d.body]
        exact ih houter.1 houter.2 h₂
      rw [← List.append_assoc]
      exact ((hall (fun q hq => hmem q (by simp [hq])) h₁).append hc' hregion).append hc'
        (hall (fun q hq => hmem q (by simp [hq])) h₃)
    · rw [d.evolves.kept hc hb (d.other b hplace hbody hinner)]
      refine hall (fun q hq => ?_) hkept
      have hmem := mem_opsOf_of_mem_kept hq
      exact ⟨hin hp hb hmem, hregion hmem hinner⟩

/-! ## Moves into a region -/

/-- A copy has the elision of what it mirrors, with the values renamed. -/
theorem Absorb.Done.serializes_copy {previous copy : OpRef} {s : ctx.Absorb o previous}
    {σ : ValueRef → ValueRef} (d : s.Done σ copy ctx') (h : ctx.Stable root)
    (hroot : ctx.Within previous root) {m : Nat} {z z' : OpRef}
    (hcopy : CopyOf ctx previous σ ctx' m z z') (hz : ctx.Within z previous)
    (hkept : ¬ctx.Discarded z) (hl : ctx.serialWithin (name ∘ σ) n z = .ok l) :
    ctx'.Serializes name [z'] l := by
  have hc := h.sound.coherent
  have hc' := d.sound.coherent
  induction m generalizing n z z' l with
  | zero => exact hcopy.elim
  | succ m ih =>
    cases n with
    | zero => simp [serialWithin] at hl
    | succ n =>
      have hop := hcopy.1
      refine .of_elision hc' hop.hasOp (((serialWithin_succ_iff hc).1 hl).2.alike
        ⟨hop.kind, hop.attributes, hop.types, ?_, ?_, ?_⟩)
      · rw [hop.results, List.map_map]
      · rw [hop.operands fun v hv => ?_, List.map_map]
        exact (h.inScope z (hz.trans hroot) hkept v hv).imp hc.earlier_of_inScope
          (h.not_definedWithin_of_foreign hroot)
      · refine (Position.forall₂_mem hcopy.2).imp fun r r' hregion => ?_
        obtain ⟨hr, hr', hregion⟩ := hregion
        refine (Position.forall₂_mem hregion.blocks).imp fun b b' hblock => ?_
        obtain ⟨hb, hb', hblock⟩ := hblock
        have hholder := hc.holder_of_mem hr hb
        have hholder' := hc'.holder_of_mem hr' hb'
        refine ⟨by rw [hblock.args, List.map_map], hblock.types, fun l hl => ?_⟩
        have hops : List.Forall₂ (CopyOf ctx previous σ ctx' m) (ctx.kept b) (ctx'.kept b') := by
          by_cases hkind : ctx.kindOf z = .parallel
          · rw [kept_of_parallel hholder hkind, kept_of_parallel hholder' (hop.kind.trans hkind)]
            exact Position.forall₂_dropLast hblock.ops
          · rw [kept_of_ne hholder hkind, kept_of_ne hholder' (by rwa [hop.kind])]
            exact hblock.ops
        refine .of_forall₂ hc' (Position.forall₂_mem hops) (fun p p' hcopy l hl => ?_) hl
        obtain ⟨hp, -, hcopy⟩ := hcopy
        refine ih hcopy ?_ (hc.not_discarded_of_mem_kept hholder hkept hp) hl
        exact (within_of_above ((hc.above_of_mem (mem_opsOf_of_mem_kept hp)).trans hholder)).trans hz

/-- Outside the operation that moves, nothing in it is in scope but its results. -/
theorem Sound.mem_results_of_inScope (h : ctx.Sound) {p previous : OpRef} {v : ValueRef}
    (hp : ¬ctx.Within p previous) (hv : ctx.InScope p v) (hdefined : ctx.DefinedWithin previous v) :
    v ∈ ctx.results previous := by
  have hc := h.coherent
  obtain ⟨d, hd, hdw⟩ := hdefined
  obtain ⟨w, hw, hv⟩ := hv
  have hnot : ¬ctx.Within w previous := fun hw' => hp (hw.trans hw')
  rw [definer] at hd
  split at hv
  · rename_i b i hsource
    rw [hsource] at hd
    have habove : ctx.above w = some d := by
      rw [above, hv]
      exact hd
    exact absurd ((within_of_above habove).trans hdw) hnot
  · rename_i q i hsource
    rw [hsource] at hd
    obtain rfl := Option.some.inj hd
    rcases within_iff_above.1 hdw with rfl | ⟨t, ht, htw⟩
    · exact (mem_results_iff hc).2 ⟨i, hsource⟩
    · rw [hv.above_eq hc] at ht
      exact absurd ((within_of_above ht).trans htw) hnot
  · exact hv.elim

theorem Absorb.Done.serializes {previous copy : OpRef} {s : ctx.Absorb o previous}
    {σ : ValueRef → ValueRef} (d : s.Done σ copy ctx') (h : ctx.Stable root)
    (hroot : ctx.Within o root) {p : OpRef} (hp : ctx.Within p root) (hne : p ≠ o)
    (hprevious : ¬ctx.Within p previous) (hdiscarded : ¬ctx.Discarded p)
    (hl : ctx.serialWithin (name ∘ σ) n p = .ok l) : ctx'.Serializes name [p] l := by
  have hc := h.sound.coherent
  have hc' := d.sound.coherent
  induction n generalizing p l with
  | zero => simp [serialWithin] at hl
  | succ n ih =>
    have hex : ctx.HasOp p := hc.hasOp_of_within' hp h.hasRoot
    have hlive : ¬ctx'.isErased p := by
      rw [d.erased p hex]
      exact fun he => he.elim hprevious (h.live p hp)
    have hin := s.within_root h hroot
    have hown {v : ValueRef} (hv : ctx.definer v = some p) : σ v = v :=
      d.outside v (by
        rintro ⟨q, hq, hw⟩
        exact hprevious (Option.some.inj (hq.symm.trans hv) ▸ hw))
    refine d.evolves.serializes hc hc' hex (fun v hv => hown (definer_of_mem_results hc hv))
      (fun b hb v hv => hown ((definer_of_mem_args hc hv).trans hb)) ?_ (fun b hb l hkept => ?_) hl
    · rw [d.operandsOf hex hlive]
      refine List.map_congr_left fun v hv => ?_
      rw [rename]
      split
      · rfl
      · rename_i hres
        refine (d.outside v ?_).symm
        rcases h.inScope p hp hdiscarded v hv with hscope | hforeign
        · exact fun hdefined => hres (h.sound.mem_results_of_inScope hprevious hscope hdefined)
        · exact h.not_definedWithin_of_foreign hin hforeign
    have hsub {q : OpRef} {c : BlockRef} {a : OpRef} (hroot : ctx.Within a root)
        (ha : ctx.holder c = some a) (hout : ¬ctx.Discarded a) (hq : q ∈ ctx.kept c) :
        ctx.above q = some a ∧ ctx.Within q root ∧ ¬ctx.Discarded q :=
      have habove := (hc.above_of_mem (mem_opsOf_of_mem_kept hq)).trans ha
      ⟨habove, (within_of_above habove).trans hroot, hc.not_discarded_of_mem_kept ha hout hq⟩
    have hregion {q : OpRef} {c : BlockRef} (hq : q ∈ ctx.opsOf c) (hne : c ≠ s.place) :
        q ≠ o ∧ q ≠ previous := by
      constructor <;>
      · rintro rfl
        exact hne (hc.ops.owner_unique hq (by simp [s.place_ops]))
    have hall {os : List OpRef} (hos : ∀ q ∈ os, ctx.Within q root ∧ q ≠ o ∧
          ¬ctx.Within q previous ∧ ¬ctx.Discarded q)
        {l : List (Serial α)} (hl : ctx.Elided (name ∘ σ) n os l) : ctx'.Serializes name os l :=
      .of_forall hc' (fun q hq l hl =>
        ih (hos q hq).1 (hos q hq).2.1 (hos q hq).2.2.1 (hos q hq).2.2.2 hl) hl
    -- what is directly in another operation is in the erased one only with that
    have hout {q a : OpRef} (ha : ctx.above q = some a) (hne : q ≠ previous)
        (hna : ¬ctx.Within a previous) : ¬ctx.Within q previous := fun hw => by
      obtain ⟨t, ht, hw⟩ := (within_iff_above.1 hw).resolve_left hne
      exact hna (Option.some.inj (ha.symm.trans ht) ▸ hw)
    by_cases hbody : b = s.team.body
    · subst hbody
      exact absurd (Option.some.inj ((s.team.holder hc).symm.trans hb)).symm hne
    by_cases hplace : b = s.place
    · -- the region has the copy in front
      subst hplace
      have hterm : ¬(ctx.kindOf o).isTerminator := by
        rw [s.team.kind]
        exact OpKind.parallel_not_isTerminator
      obtain ⟨rest, hsplit, hsplit'⟩ := h.exists_kept_split hp hb
        (show _ = (s.before ++ [previous]) ++ o :: s.after by rw [s.place_ops]; simp) hterm
      rw [List.append_assoc, List.singleton_append] at hsplit
      have hnodup := hc.kept_nodup s.place
      rw [hsplit] at hkept hnodup
      have hmem (q : OpRef) (hq : q ∈ s.before ∨ q ∈ rest) : ctx.Within q root ∧ q ≠ o ∧
          ¬ctx.Within q previous ∧ ¬ctx.Discarded q := by
        obtain ⟨habove, hw, hd⟩ := hsub hp hb hdiscarded (q := q) (by
          rw [hsplit]
          rcases hq with hq | hq <;> simp [hq])
        have hne : q ≠ o ∧ q ≠ previous := by
          simp only [List.nodup_append, List.nodup_cons, List.mem_cons, not_or] at hnodup
          rcases hq with hq | hq
          · exact ⟨hnodup.2.2 q hq o (.inr (.inl rfl)), hnodup.2.2 q hq previous (.inl rfl)⟩
          · constructor
            · rintro rfl
              exact hnodup.2.1.2.1 hq
            · rintro rfl
              exact hnodup.2.1.1.2 hq
        exact ⟨hw, hne.1, hout habove hne.2 hprevious, hd⟩
      have hregionKept := (hsub hp hb hdiscarded (q := o) (by simp [hsplit])).2.2
      have hpreviousKept := (hsub hp hb hdiscarded (q := previous) (by simp [hsplit])).2.2
      rw [hsplit' ctx' (s.before ++ [o]) d.evolves (by rw [d.place h.sound]; simp)]
      obtain ⟨l₁, _, h₁, htail₁, rfl⟩ := Elided.append_iff.1 hkept
      obtain ⟨l₂, _, h₂, htail₂, rfl⟩ := Elided.cons_iff.1 htail₁
      obtain ⟨l₃, l₄, h₃, h₄, rfl⟩ := Elided.cons_iff.1 htail₂
      have hfull : ctx'.Serializes name [o] (l₂ ++ l₃) := by
        refine s.team.serializes hc hc' d.evolves ?_
        rw [kept_of_parallel (d.evolves.holder hc (s.team.holder hc))
          ((d.evolves.kindOf s.team.hasOp).trans s.team.kind), d.body, s.team.ops,
          ← List.cons_append, List.dropLast_concat]
        have hcontents := s.team.elided hc h₃
        rw [s.team.kept hc] at hcontents
        refine (d.serializes_copy h hin d.copyOf (.refl _) hpreviousKept h₂).cons hc'
          (hall (fun q hq => ?_) hcontents)
        obtain ⟨habove, hw, hd⟩ := hsub hroot (s.team.holder hc) hregionKept (q := q)
          (by rwa [s.team.kept hc])
        obtain ⟨ho, hne⟩ := hregion (q := q) (c := s.team.body) (by simp [s.team.ops, hq]) (Ne.symm hbody)
        exact ⟨hw, ho, hout habove hne (s.region_not_within h.sound), hd⟩
      have := ((hall (fun q hq => hmem q (.inl hq)) h₁).append hc' hfull).append hc'
        (hall (fun q hq => hmem q (.inr hq)) h₄)
      simpa using this
    · have hops : ctx'.opsOf b = ctx.opsOf b := by
        rw [d.other b (hc.hasBlock_of_holder hb) hbody, filter_ne_self]
        exact hc.not_mem_of_ne (b := s.place) (by simp [s.place_ops]) hplace
      rw [d.evolves.kept hc hb hops]
      refine hall (fun q hq => ?_) hkept
      obtain ⟨habove, hw, hd⟩ := hsub hp hb hdiscarded hq
      obtain ⟨ho, hne⟩ := hregion (mem_opsOf_of_mem_kept hq) hplace
      exact ⟨hw, ho, hout habove hne hprevious, hd⟩

/-! ## Fusions -/

theorem Fuse.Done.serializes {previous barrier : OpRef} {s : ctx.Fuse o previous}
    (d : s.Done barrier ctx') (h : ctx.Stable root) (hroot : ctx.Within o root) {p : OpRef}
    (hp : ctx.Within p root) (ho : p ≠ o) (hne : p ≠ previous) (hdiscarded : ¬ctx.Discarded p)
    (hl : ctx.serialWithin name n p = .ok l) : ctx'.Serializes name [p] l := by
  have hc := h.sound.coherent
  have hc' := d.sound.coherent
  induction n generalizing p l with
  | zero => simp [serialWithin] at hl
  | succ n ih =>
    have hex : ctx.HasOp p := hc.hasOp_of_within' hp h.hasRoot
    have hlive : ¬ctx'.isErased p := by
      rw [d.erased p hex]
      rintro (e | hw | he)
      · exact ho e
      · exact hdiscarded (s.first.discarded hc hw)
      · exact h.live p hp he
    refine d.evolves.serializes (ρ := id) hc hc' hex (fun _ _ => rfl) (fun _ _ _ _ => rfl) ?_
      (fun b hb l (hkept : ctx.Elided name n _ l) => ?_) hl
    · rw [d.evolves.operandsOf hlive (d.held p hlive), List.map_id]
    have hsub {q : OpRef} {c : BlockRef} {a : OpRef} (hroot : ctx.Within a root)
        (ha : ctx.holder c = some a) (hout : ¬ctx.Discarded a) (hq : q ∈ ctx.kept c) :
        ctx.Within q root ∧ ¬ctx.Discarded q :=
      have habove := (hc.above_of_mem (mem_opsOf_of_mem_kept hq)).trans ha
      ⟨(within_of_above habove).trans hroot, hc.not_discarded_of_mem_kept ha hout hq⟩
    have hregion {q : OpRef} {c : BlockRef} (hq : q ∈ ctx.opsOf c) (hne : c ≠ s.place) :
        q ≠ o ∧ q ≠ previous := by
      constructor <;>
      · rintro rfl
        exact hne (hc.ops.owner_unique hq (by simp [s.place_ops]))
    have hall {os : List OpRef} (hos : ∀ q ∈ os, (ctx.Within q root ∧ ¬ctx.Discarded q) ∧
          q ≠ o ∧ q ≠ previous)
        {l : List (Serial α)} (hl : ctx.Elided name n os l) : ctx'.Serializes name os l :=
      .of_forall hc' (fun q hq l hl =>
        ih (hos q hq).1.1 (hos q hq).2.1 (hos q hq).2.2 (hos q hq).1.2 hl) hl
    by_cases hfirst : b = s.first.body
    · subst hfirst
      exact absurd (Option.some.inj ((s.first.holder hc).symm.trans hb)).symm hne
    by_cases hsecond : b = s.second.body
    · subst hsecond
      exact absurd (Option.some.inj ((s.second.holder hc).symm.trans hb)).symm ho
    by_cases hplace : b = s.place
    · -- the first region has the contents of both
      subst hplace
      have hterm : ¬(ctx.kindOf o).isTerminator := by
        rw [s.second.kind]
        exact OpKind.parallel_not_isTerminator
      obtain ⟨rest, hsplit, hsplit'⟩ := h.exists_kept_split hp hb
        (show _ = (s.before ++ [previous]) ++ o :: s.after by rw [s.place_ops]; simp) hterm
      rw [List.append_assoc, List.singleton_append] at hsplit
      have hnodup := hc.kept_nodup s.place
      rw [hsplit] at hkept hnodup
      have hmem (q : OpRef) (hq : q ∈ s.before ∨ q ∈ rest) :
          (ctx.Within q root ∧ ¬ctx.Discarded q) ∧ q ≠ o ∧ q ≠ previous := by
        refine ⟨hsub hp hb hdiscarded (q := q) ?_, ?_⟩
        · rw [hsplit]
          rcases hq with hq | hq <;> simp [hq]
        · simp only [List.nodup_append, List.nodup_cons, List.mem_cons, not_or] at hnodup
          rcases hq with hq | hq
          · exact ⟨hnodup.2.2 q hq o (.inr (.inl rfl)), hnodup.2.2 q hq previous (.inl rfl)⟩
          · constructor
            · rintro rfl
              exact hnodup.2.1.2.1 hq
            · rintro rfl
              exact hnodup.2.1.1.2 hq
      have hkept₁ := hsub hp hb hdiscarded (q := previous) (by simp [hsplit])
      have hkept₂ := hsub hp hb hdiscarded (q := o) (by simp [hsplit])
      rw [hsplit' ctx' (s.before ++ [previous]) d.evolves (by rw [d.place]; simp)]
      obtain ⟨l₁, _, h₁, htail₁, rfl⟩ := Elided.append_iff.1 hkept
      obtain ⟨l₂, _, h₂, htail₂, rfl⟩ := Elided.cons_iff.1 htail₁
      obtain ⟨l₃, l₄, h₃, h₄, rfl⟩ := Elided.cons_iff.1 htail₂
      have hfull : ctx'.Serializes name [previous] (l₂ ++ l₃) := by
        refine s.first.serializes hc hc' d.evolves ?_
        rw [kept_of_parallel (d.evolves.holder hc (s.first.holder hc))
          ((d.evolves.kindOf s.first.hasOp).trans s.first.kind), d.first, s.second.ops,
          ← List.cons_append, ← List.append_assoc, List.dropLast_concat]
        have hcontents₁ := s.first.elided hc h₂
        have hcontents₂ := s.second.elided hc h₃
        rw [Team.kept _ hc] at hcontents₁ hcontents₂
        refine (hall (fun q hq => ?_) hcontents₁).append hc'
          (.cons (l := []) hc' (.of_elision hc' d.bare.hasOp (.barrier d.bare.kind))
            (hall (fun q hq => ?_) hcontents₂))
        · exact ⟨hsub hkept₁.1 (s.first.holder hc) hkept₁.2 (by rwa [s.first.kept hc]),
            hregion (q := q) (c := s.first.body) (by simp [s.first.ops, hq]) (Ne.symm hfirst)⟩
        · exact ⟨hsub hkept₂.1 (s.second.holder hc) hkept₂.2 (by rwa [s.second.kept hc]),
            hregion (q := q) (c := s.second.body) (by simp [s.second.ops, hq]) (Ne.symm hsecond)⟩
      have := ((hall (fun q hq => hmem q (.inl hq)) h₁).append hc' hfull).append hc'
        (hall (fun q hq => hmem q (.inr hq)) h₄)
      simpa using this
    · rw [d.evolves.kept hc hb (d.other b hplace hfirst hsecond)]
      refine hall (fun q hq => ?_) hkept
      exact ⟨hsub hp hb hdiscarded hq, hregion (mem_opsOf_of_mem_kept hq) hplace⟩

end Context

end Offload
