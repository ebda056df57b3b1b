import Mathlib.Data.Finset.Card
import Mathlib.Logic.Relation
import Offload.Ir.Nesting
import Offload.Proofs.Ir.Frame

/-!
# Nesting as a relation

An operation is *above* another one if one of its regions has a block that lists
the other (`above`), and an operation is *within* another one if a way up leads
from it to the other (`Within`). A context is *grounded* if no way up is endless,
which is said by a rank that falls along every way up (`Grounded`). There is then
one below the number of operations (`Grounded.exists_depth`), so the functions
that look up and down in so many steps see everything:
`Grounded.subtree_ok`, `mem_subtree_iff`, `Grounded.isAncestor_iff`.
-/

namespace Offload.Context

variable {ctx ctx' : Context}

/-! ## The operation above -/

/-- The operation that a block is directly in. -/
def holder (ctx : Context) (b : BlockRef) : Option OpRef := (ctx.regionOf b).bind ctx.ownerOf

/-- The operation that an operation is directly in. -/
def above (ctx : Context) (o : OpRef) : Option OpRef := (ctx.blockOf o).bind ctx.holder

/-- An operation is another one, or is nested in it. -/
def Within (ctx : Context) (o ancestor : OpRef) : Prop :=
  Relation.ReflTransGen (fun p q => ctx.above p = some q) o ancestor

theorem Within.refl (o : OpRef) : ctx.Within o o := Relation.ReflTransGen.refl

theorem Within.trans {o p q : OpRef} (h₁ : ctx.Within o p) (h₂ : ctx.Within p q) :
    ctx.Within o q := Relation.ReflTransGen.trans h₁ h₂

theorem within_of_above {o p : OpRef} (h : ctx.above o = some p) : ctx.Within o p :=
  Relation.ReflTransGen.single h

/-- The way up from an operation starts with the step to the operation above. -/
theorem within_iff_above {o a : OpRef} :
    ctx.Within o a ↔ o = a ∨ ∃ p, ctx.above o = some p ∧ ctx.Within p a := by
  rw [Within, Relation.ReflTransGen.cases_head_iff]
  rfl

/-- The way up to an operation ends with the step from one directly in it. -/
theorem within_iff_below {o a : OpRef} :
    ctx.Within o a ↔ o = a ∨ ∃ c, ctx.above c = some a ∧ ctx.Within o c := by
  rw [Within, Relation.ReflTransGen.cases_tail_iff, eq_comm]
  exact or_congr_right (exists_congr fun c => and_comm)

/-- Two ways up from an operation are one way. -/
theorem Within.total {o a b : OpRef} (ha : ctx.Within o a) (hb : ctx.Within o b) :
    ctx.Within a b ∨ ctx.Within b a :=
  Relation.ReflTransGen.total_of_right_unique
    (fun _ _ _ h₁ h₂ => Option.some.inj (h₁.symm.trans h₂)) ha hb

theorem above_eq_some_iff {o p : OpRef} : ctx.above o = some p ↔
    ∃ b r, ctx.blockOf o = some b ∧ ctx.regionOf b = some r ∧ ctx.ownerOf r = some p := by
  rw [above, Option.bind_eq_some_iff]
  simp only [holder, Option.bind_eq_some_iff, exists_and_left]

theorem Coherent.hasOp_of_holder (h : ctx.Coherent) {b : BlockRef} {p : OpRef}
    (hp : ctx.holder b = some p) : ctx.HasOp p := by
  obtain ⟨r, -, hr⟩ := Option.bind_eq_some_iff.1 hp
  exact h.hasOp_of_ownerOf hr

theorem Coherent.hasOp_of_above (h : ctx.Coherent) {o p : OpRef} (hp : ctx.above o = some p) :
    ctx.HasOp o ∧ ctx.HasOp p := by
  obtain ⟨b, hb, hp⟩ := Option.bind_eq_some_iff.1 hp
  exact ⟨h.hasOp_of_mem ((h.ops.owner_iff o b).1 hb), h.hasOp_of_holder hp⟩

theorem Coherent.hasOp_of_within (h : ctx.Coherent) {o a : OpRef} (hw : ctx.Within o a)
    (ho : ctx.HasOp o) : ctx.HasOp a := by
  cases within_iff_below.1 hw with
  | inl e => exact e ▸ ho
  | inr hc =>
    obtain ⟨c, hc, -⟩ := hc
    exact (h.hasOp_of_above hc).2

theorem Coherent.hasOp_of_within' (h : ctx.Coherent) {o a : OpRef} (hw : ctx.Within o a)
    (ha : ctx.HasOp a) : ctx.HasOp o := by
  cases within_iff_above.1 hw with
  | inl e => exact e ▸ ha
  | inr hp =>
    obtain ⟨p, hp, -⟩ := hp
    exact (h.hasOp_of_above hp).1

/-- Ways up are the same where those from all operations are. -/
theorem Coherent.within_congr (h : ctx.Coherent)
    (habove : ∀ p, ctx.HasOp p → ctx'.above p = ctx.above p) {o a : OpRef} (ho : ctx.HasOp o) :
    ctx'.Within o a ↔ ctx.Within o a := by
  constructor
  · intro hw
    induction hw using Relation.ReflTransGen.head_induction_on with
    | refl => exact .refl a
    | head hstep _ ih =>
      rw [habove _ ho] at hstep
      exact (within_of_above hstep).trans (ih (h.hasOp_of_above hstep).2)
  · intro hw
    induction hw using Relation.ReflTransGen.head_induction_on with
    | refl => exact .refl a
    | head hstep _ ih =>
      exact (within_of_above ((habove _ ho).trans hstep)).trans (ih (h.hasOp_of_above hstep).2)

theorem parentOp_eq_ok {o : OpRef} {p : Option OpRef} (hrun : ctx.parentOp o = .ok p) :
    ctx.HasOp o ∧ p = ctx.above o := by
  rw [parentOp] at hrun
  obtain ⟨row, hrow, hrun⟩ := Outcome.bind_eq_ok.1 hrun
  have hb : ctx.blockOf o = row.parent := readOp_of_op hrow _ _
  refine ⟨hasOp_iff.2 ⟨row, hrow⟩, ?_⟩
  rw [above, hb]
  cases hrow' : row.parent with
  | none =>
    rw [hrow'] at hrun
    exact (Outcome.pure_eq_ok.1 hrun).symm
  | some b =>
    simp only [hrow', Outcome.bind_eq_ok] at hrun
    obtain ⟨block, hblock, hrun⟩ := hrun
    have hr : ctx.regionOf b = block.parent := readBlock_of_block hblock _ _
    rw [Option.bind_some, holder, hr]
    cases hblock' : block.parent with
    | none =>
      rw [hblock'] at hrun
      exact (Outcome.pure_eq_ok.1 hrun).symm
    | some r =>
      simp only [hblock', Outcome.bind_eq_ok, Outcome.pure_eq_ok] at hrun
      obtain ⟨region, hregion, rfl⟩ := hrun
      exact (readRegion_of_region hregion _ _).symm

theorem Coherent.parentOp_ok (h : ctx.Coherent) {o : OpRef} (ho : ctx.HasOp o) :
    ctx.parentOp o = .ok (ctx.above o) := by
  obtain ⟨row, hrow⟩ := hasOp_iff.1 ho
  have hb : ctx.blockOf o = row.parent := readOp_of_op hrow _ _
  rw [parentOp, above, hb, hrow, Outcome.ok_bind]
  cases hrow' : row.parent with
  | none => rfl
  | some b =>
    rw [hrow'] at hb
    obtain ⟨block, hblock⟩ := hasBlock_iff.1 (h.hasBlock_of_blockOf hb)
    have hr : ctx.regionOf b = block.parent := readBlock_of_block hblock _ _
    simp only [hblock, Outcome.ok_bind, Option.bind_some, holder, hr]
    cases hblock' : block.parent with
    | none => rfl
    | some r =>
      rw [hblock'] at hr
      obtain ⟨region, hregion⟩ := hasRegion_iff.1 (h.hasRegion_of_regionOf hr)
      simp only [hregion, Outcome.ok_bind, Option.bind_some, ownerOf,
        readRegion_of_region hregion]
      rfl

/-! ## Ways up that end -/

/-- Some rank falls along every way up. -/
def Grounded (ctx : Context) : Prop :=
  ∃ rank : OpRef → Nat, ∀ o p, ctx.above o = some p → rank p < rank o

theorem grounded_empty : empty.Grounded := by
  refine ⟨fun _ => 0, fun o p hp => ?_⟩
  obtain ⟨b, r, hb, -, -⟩ := above_eq_some_iff.1 hp
  simp [empty, readOp] at hb

theorem Grounded.mono (h : ctx.Grounded)
    (habove : ∀ o p, ctx'.above o = some p → ctx.above o = some p) : ctx'.Grounded := by
  obtain ⟨rank, hrank⟩ := h
  exact ⟨rank, fun o p hp => hrank o p (habove o p hp)⟩

/-- Operations are put into one that is in none of them. -/
theorem Grounded.attach (h : ctx.Grounded) {os : List OpRef} {target : Option OpRef}
    (habove : ∀ p, ctx'.above p = if p ∈ os then target else ctx.above p)
    (htarget : ∀ t, target = some t → ∀ o ∈ os, ¬ctx.Within t o) : ctx'.Grounded := by
  classical
  obtain ⟨rank, hrank⟩ := h
  -- what is in the operations is lifted above the rank of the target
  refine ⟨fun p => if ∃ o ∈ os, ctx.Within p o then rank p + (target.map rank).getD 0 + 1
    else rank p, fun p q hq => ?_⟩
  rw [habove] at hq
  by_cases hp : p ∈ os
  · rw [if_pos hp] at hq
    have hin : ∃ o ∈ os, ctx.Within p o := ⟨p, hp, .refl p⟩
    have hout : ¬∃ o ∈ os, ctx.Within q o := fun ⟨o, ho, hw⟩ => htarget q hq o ho hw
    simp only [if_neg hout, if_pos hin, hq, Option.map_some, Option.getD_some]
    omega
  · rw [if_neg hp] at hq
    have hlt := hrank p q hq
    have hiff : (∃ o ∈ os, ctx.Within p o) ↔ ∃ o ∈ os, ctx.Within q o := by
      refine exists_congr fun o => and_congr_right fun ho => ?_
      have hne : p ≠ o := fun heq => hp (heq ▸ ho)
      rw [within_iff_above, or_iff_right hne]
      exact ⟨fun ⟨r, hr, hw⟩ => Option.some.inj (hr.symm.trans hq) ▸ hw, fun hw => ⟨q, hq, hw⟩⟩
    simp only [hiff]
    split <;> omega

/-- What holds of an operation if it holds of the one above holds of all. -/
theorem Grounded.above_induction (h : ctx.Grounded) {motive : OpRef → Prop}
    (step : ∀ o, (∀ p, ctx.above o = some p → motive p) → motive o) (o : OpRef) : motive o := by
  obtain ⟨rank, hrank⟩ := h
  induction hn : rank o using Nat.strong_induction_on generalizing o with
  | _ n ih => exact step o fun p hp => ih (rank p) (hn ▸ hrank o p hp) p rfl

theorem Grounded.not_within_above (h : ctx.Grounded) {o p : OpRef} (hp : ctx.above o = some p) :
    ¬ctx.Within p o := by
  obtain ⟨rank, hrank⟩ := h
  have hle {a b : OpRef} (hw : ctx.Within a b) : rank b ≤ rank a := by
    induction hw with
    | refl => exact Nat.le_refl _
    | tail _ hs ih => exact (Nat.le_of_lt (hrank _ _ hs)).trans ih
  intro hw
  have := hle hw
  have := hrank o p hp
  omega

theorem Grounded.antisymm (h : ctx.Grounded) {o p : OpRef} (h₁ : ctx.Within o p)
    (h₂ : ctx.Within p o) : o = p := by
  cases within_iff_above.1 h₁ with
  | inl e => exact e
  | inr hq =>
    obtain ⟨q, hq, hw⟩ := hq
    exact absurd (hw.trans h₂) (h.not_within_above hq)

/-- Operations directly in the same one are not in each other. -/
theorem Grounded.eq_of_siblings (h : ctx.Grounded) {o p a : OpRef} (ho : ctx.above o = some a)
    (hp : ctx.above p = some a) (hw : ctx.Within o p) : o = p := by
  cases within_iff_above.1 hw with
  | inl e => exact e
  | inr hq =>
    obtain ⟨q, hq, hw⟩ := hq
    obtain rfl := Option.some.inj (ho.symm.trans hq)
    exact absurd hw (h.not_within_above hp)

/-- There is a rank below the number of operations. -/
theorem Grounded.exists_depth (h : ctx.Grounded) (hc : ctx.Coherent) :
    ∃ depth : OpRef → Nat, (∀ o p, ctx.above o = some p → depth p < depth o) ∧
      ∀ o, ctx.HasOp o → depth o < ctx.ops.size := by
  obtain ⟨rank, hrank⟩ := h
  -- count the operations of lower rank
  let lower (o : OpRef) := (Finset.range ctx.ops.size).filter fun i => rank ⟨i⟩ < rank o
  have hself (o : OpRef) : o.index ∉ lower o := by simp [lower]
  refine ⟨fun o => (lower o).card, fun o p hp => ?_, fun o ho => ?_⟩
  · refine Finset.card_lt_card (Finset.ssubset_iff_of_subset ?_ |>.2 ⟨p.index, ?_, hself p⟩)
    · intro i hi
      rw [Finset.mem_filter] at hi ⊢
      exact ⟨hi.1, hi.2.trans (hrank o p hp)⟩
    · exact Finset.mem_filter.2 ⟨Finset.mem_range.2 (hc.hasOp_of_above hp).2, hrank o p hp⟩
  · have hlt : (lower o).card < (Finset.range ctx.ops.size).card :=
      Finset.card_lt_card (Finset.ssubset_iff_of_subset (Finset.filter_subset _ _) |>.2
        ⟨o.index, Finset.mem_range.2 ho, hself o⟩)
    rwa [Finset.card_range] at hlt

/-! ## Looking up -/

theorem within_of_isAncestorWithin {a : OpRef} {n : Nat} {o : OpRef}
    (hrun : ctx.isAncestorWithin a n o = .ok true) : ctx.Within o a := by
  induction n generalizing o with
  | zero => simp [isAncestorWithin] at hrun
  | succ n ih =>
    rw [isAncestorWithin] at hrun
    split at hrun
    · rename_i ho
      exact ho ▸ Within.refl o
    · obtain ⟨p, hp, hrun⟩ := Outcome.bind_eq_ok.1 hrun
      obtain ⟨-, rfl⟩ := parentOp_eq_ok hp
      split at hrun
      · rename_i parent hparent
        exact (within_of_above hparent).trans (ih hrun)
      · simp at hrun

theorem Coherent.isAncestorWithin_ok (h : ctx.Coherent) (a : OpRef) {n : Nat} {o : OpRef}
    (ho : ctx.HasOp o) : ∃ answer, ctx.isAncestorWithin a n o = .ok answer := by
  induction n generalizing o with
  | zero => exact ⟨false, rfl⟩
  | succ n ih =>
    rw [isAncestorWithin]
    split
    · exact ⟨true, rfl⟩
    · rw [h.parentOp_ok ho, Outcome.ok_bind]
      split
      · rename_i p hp
        exact ih (h.hasOp_of_above hp).2
      · exact ⟨false, rfl⟩

/-- In as many steps as there are operations, an operation around another one is
    found. -/
theorem Grounded.isAncestorWithin_iff (hg : ctx.Grounded) (h : ctx.Coherent) {a o : OpRef} {n : Nat}
    (hn : ctx.ops.size ≤ n) (ho : ctx.HasOp o) :
    ctx.isAncestorWithin a n o = .ok true ↔ ctx.Within o a := by
  obtain ⟨depth, hdepth, hsize⟩ := hg.exists_depth h
  refine ⟨within_of_isAncestorWithin, fun hw => ?_⟩
  have key {n : Nat} {o : OpRef} (ho : ctx.HasOp o) (hn : depth o < n) (hw : ctx.Within o a) :
      ctx.isAncestorWithin a n o = .ok true := by
    induction n generalizing o with
    | zero => omega
    | succ n ih =>
      rw [isAncestorWithin]
      split
      · rfl
      · rename_i hne
        obtain ⟨p, hp, hw⟩ := (within_iff_above.1 hw).resolve_left hne
        rw [h.parentOp_ok ho, Outcome.ok_bind, hp]
        have := hdepth o p hp
        exact ih (h.hasOp_of_above hp).2 (by omega) hw
  exact key ho ((hsize o ho).trans_le hn) hw

theorem Grounded.isAncestor_iff (hg : ctx.Grounded) (h : ctx.Coherent) {a o : OpRef}
    (ho : ctx.HasOp o) : ctx.isAncestor a o = .ok true ↔ ctx.Within o a :=
  hg.isAncestorWithin_iff h (Nat.le_succ _) ho

/-! ## Looking down -/

/-- The operations directly in an operation. -/
def childrenOf (ctx : Context) (o : OpRef) : List OpRef :=
  (ctx.regionsOf o).flatMap fun r => (ctx.blocksOf r).flatMap ctx.opsOf

theorem Coherent.mem_childrenOf (h : ctx.Coherent) {o c : OpRef} :
    c ∈ ctx.childrenOf o ↔ ctx.above c = some o := by
  simp only [childrenOf, List.mem_flatMap, above_eq_some_iff, h.ops.owner_iff, h.blocks.owner_iff,
    h.regions.owner_iff]
  constructor
  · rintro ⟨r, hr, b, hb, hc⟩
    exact ⟨b, r, hc, hb, hr⟩
  · rintro ⟨b, r, hc, hb, hr⟩
    exact ⟨r, hr, b, hb, hc⟩

theorem regionOps_eq_ok {r : RegionRef} {l : List OpRef} (hrun : ctx.regionOps r = .ok l) :
    l = (ctx.blocksOf r).flatMap ctx.opsOf := by
  obtain ⟨region, hregion, hrun⟩ := Outcome.bind_eq_ok.1 hrun
  rw [blocksOf, readRegion_of_region hregion]
  refine Outcome.eq_flatMap_of_flatMapM (fun b ops hb => ?_) hrun
  obtain ⟨block, hblock, hb⟩ := Outcome.bind_eq_ok.1 hb
  rw [opsOf, readBlock_of_block hblock, Outcome.pure_eq_ok.1 hb]

theorem children_eq_ok {o : OpRef} {l : List OpRef} (hrun : ctx.children o = .ok l) :
    ctx.HasOp o ∧ l = ctx.childrenOf o := by
  obtain ⟨row, hrow, hrun⟩ := Outcome.bind_eq_ok.1 hrun
  refine ⟨hasOp_iff.2 ⟨row, hrow⟩, ?_⟩
  rw [childrenOf, regionsOf, readOp_of_op hrow]
  exact Outcome.eq_flatMap_of_flatMapM (fun r ops hr => regionOps_eq_ok hr) hrun

theorem Coherent.children_ok (h : ctx.Coherent) {o : OpRef} (ho : ctx.HasOp o) :
    ctx.children o = .ok (ctx.childrenOf o) := by
  have hex : ∃ l, ctx.children o = .ok l := by
    obtain ⟨row, hrow⟩ := hasOp_iff.1 ho
    have hregions : ctx.regionsOf o = row.regions := readOp_of_op hrow _ _
    have hblocks (r : RegionRef) (hr : r ∈ row.regions) : ∃ l, ctx.regionOps r = .ok l := by
      obtain ⟨region, hregion⟩ := hasRegion_iff.1 (h.hasRegion_of_mem (hregions ▸ hr))
      have hbs : ctx.blocksOf r = region.blocks := readRegion_of_region hregion _ _
      rw [regionOps, hregion]
      refine Outcome.flatMapM_ok fun b hb => ?_
      obtain ⟨block, hblock⟩ := hasBlock_iff.1 (h.hasBlock_of_mem (hbs ▸ hb))
      exact ⟨block.ops, by rw [hblock]; rfl⟩
    obtain ⟨l, hl⟩ := Outcome.flatMapM_ok hblocks
    exact ⟨l, by rw [children, hrow]; exact hl⟩
  obtain ⟨l, hl⟩ := hex
  rw [hl, (children_eq_ok hl).2]

theorem Coherent.nodup_childrenOf (h : ctx.Coherent) (o : OpRef) : (ctx.childrenOf o).Nodup := by
  refine List.nodup_flatMap.2 ⟨fun r _ => List.nodup_flatMap.2 ⟨fun b _ => h.ops.nodup b, ?_⟩, ?_⟩
  · refine (h.blocks.nodup r).imp fun {b c} hne p hb hc => ?_
    exact hne (h.ops.owner_unique hb hc)
  · refine (h.regions.nodup o).imp fun {r s} hne p hr hs => ?_
    obtain ⟨b, hb, hp⟩ := List.mem_flatMap.1 hr
    obtain ⟨c, hc, hp'⟩ := List.mem_flatMap.1 hs
    obtain rfl := h.ops.owner_unique hp hp'
    exact hne (h.blocks.owner_unique hb hc)

theorem subtreeWithin_succ_eq_ok {n : Nat} {o : OpRef} {l : List OpRef}
    (hrun : ctx.subtreeWithin (n + 1) o = .ok l) :
    ctx.HasOp o ∧ ∃ ls, List.Forall₂ (fun c l => ctx.subtreeWithin n c = .ok l)
      (ctx.childrenOf o) ls ∧ l = o :: ls.flatten := by
  rw [subtreeWithin] at hrun
  simp only [Outcome.bind_eq_ok, Outcome.pure_eq_ok] at hrun
  obtain ⟨cs, hcs, l', hl', rfl⟩ := hrun
  obtain ⟨ho, rfl⟩ := children_eq_ok hcs
  obtain ⟨ls, hls, rfl⟩ := Outcome.flatMapM_eq_ok.1 hl'
  exact ⟨ho, ls, hls, rfl⟩

/-- The tree of an operation has what is within the operation. -/
theorem Coherent.mem_subtreeWithin_iff (h : ctx.Coherent) {n : Nat} {o p : OpRef}
    {l : List OpRef} (hrun : ctx.subtreeWithin n o = .ok l) : p ∈ l ↔ ctx.Within p o := by
  induction n generalizing o l with
  | zero => cases hrun
  | succ n ih =>
    obtain ⟨-, ls, hls, rfl⟩ := subtreeWithin_succ_eq_ok hrun
    rw [within_iff_below, List.mem_cons, List.mem_flatten]
    refine or_congr_right ⟨?_, ?_⟩
    · rintro ⟨l, hl, hp⟩
      obtain ⟨c, hc, hrun⟩ := Outcome.exists_of_mem_right hls hl
      exact ⟨c, h.mem_childrenOf.1 hc, (ih hrun).1 hp⟩
    · rintro ⟨c, hc, hw⟩
      obtain ⟨l, hl, hrun⟩ := Outcome.exists_of_mem_left hls (h.mem_childrenOf.2 hc)
      exact ⟨l, hl, (ih hrun).2 hw⟩

theorem Coherent.mem_subtree_iff (h : ctx.Coherent) {o p : OpRef} {l : List OpRef}
    (hrun : ctx.subtree o = .ok l) : p ∈ l ↔ ctx.Within p o := h.mem_subtreeWithin_iff hrun

/-- In the tree of an operation nothing is nested in what comes later, nor comes again. -/
theorem Grounded.pairwise_subtreeWithin (hg : ctx.Grounded) (h : ctx.Coherent) {n : Nat}
    {o : OpRef} {l : List OpRef} (hrun : ctx.subtreeWithin n o = .ok l) :
    l.Pairwise fun p q => ¬ctx.Within p q := by
  induction n generalizing o l with
  | zero => cases hrun
  | succ n ih =>
    obtain ⟨-, ls, hls, rfl⟩ := subtreeWithin_succ_eq_ok hrun
    have habove (c : OpRef) (hc : c ∈ ctx.childrenOf o) : ctx.above c = some o :=
      h.mem_childrenOf.1 hc
    refine List.pairwise_cons.2 ⟨fun q hq hoq => ?_, List.pairwise_flatten.2 ⟨fun l hl => ?_, ?_⟩⟩
    · obtain ⟨l, hl, hq⟩ := List.mem_flatten.1 hq
      obtain ⟨c, hc, hrun⟩ := Outcome.exists_of_mem_right hls hl
      exact hg.not_within_above (habove c hc) (hoq.trans ((h.mem_subtreeWithin_iff hrun).1 hq))
    · obtain ⟨c, -, hrun⟩ := Outcome.exists_of_mem_right hls hl
      exact ih hrun
    · -- what is in the trees of two children is in one of the children
      have hnodup := h.nodup_childrenOf o
      generalize ctx.childrenOf o = cs at hls habove hnodup
      clear hrun
      induction hls with
      | nil => exact .nil
      | @cons c l cs ls hrun htail ih' =>
        obtain ⟨hc, hnodup⟩ := List.nodup_cons.1 hnodup
        refine List.pairwise_cons.2 ⟨fun l' hl' p hp q hq hpq => ?_,
          ih' (fun d hd => habove d (List.mem_cons_of_mem c hd)) hnodup⟩
        obtain ⟨d, hd, hrun'⟩ := Outcome.exists_of_mem_right htail hl'
        have hboth := habove c List.mem_cons_self
        have hboth' := habove d (List.mem_cons_of_mem c hd)
        have hw := (h.mem_subtreeWithin_iff hrun).1 hp
        have hw' := hpq.trans ((h.mem_subtreeWithin_iff hrun').1 hq)
        have heq : c = d := (hw.total hw').elim (hg.eq_of_siblings hboth hboth')
          fun hdc => (hg.eq_of_siblings hboth' hboth hdc).symm
        exact hc (heq ▸ hd)

theorem Grounded.pairwise_subtree (hg : ctx.Grounded) (h : ctx.Coherent) {o : OpRef}
    {l : List OpRef} (hrun : ctx.subtree o = .ok l) : l.Pairwise fun p q => ¬ctx.Within p q :=
  hg.pairwise_subtreeWithin h hrun

/-- The tree of an operation lists nothing twice. -/
theorem Grounded.nodup_subtree (hg : ctx.Grounded) (h : ctx.Coherent) {o : OpRef}
    {l : List OpRef} (hrun : ctx.subtree o = .ok l) : l.Nodup :=
  (hg.pairwise_subtree h hrun).imp fun {p q} hpq (e : p = q) => hpq (e ▸ .refl p)

/-- As many levels as there are operations suffice to see a tree. -/
theorem Grounded.subtree_ok (hg : ctx.Grounded) (h : ctx.Coherent) {o : OpRef}
    (ho : ctx.HasOp o) : ∃ l, ctx.subtree o = .ok l := by
  obtain ⟨depth, hdepth, hsize⟩ := hg.exists_depth h
  have key {n : Nat} {o : OpRef} (ho : ctx.HasOp o) (hn : ctx.ops.size ≤ depth o + n) :
      ∃ l, ctx.subtreeWithin n o = .ok l := by
    induction n generalizing o with
    | zero =>
      have := hsize o ho
      omega
    | succ n ih =>
      have hbelow : ∃ l, (ctx.childrenOf o).flatMapM (ctx.subtreeWithin n) = .ok l := by
        refine Outcome.flatMapM_ok fun c hc => ?_
        rw [h.mem_childrenOf] at hc
        have := hdepth c o hc
        exact ih (h.hasOp_of_above hc).1 (by omega)
      obtain ⟨l, hl⟩ := hbelow
      exact ⟨o :: l, by rw [subtreeWithin, h.children_ok ho, Outcome.ok_bind, hl]; rfl⟩
  exact key ho (by omega)

end Offload.Context
