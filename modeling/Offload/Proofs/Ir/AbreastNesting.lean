import Offload.Proofs.Ir.AbreastEdit
import Offload.Proofs.Ir.Scope
import Offload.Proofs.Ir.Sound
import Offload.Proofs.Ir.Walk
import Offload.Effects

/-!
# Looking around in contexts that match

What is seen on the way down from paired operations is paired. On the way up it is, as far as
the tops. What is around them is one and the same operation, the root, which is not paired
itself (`Around`); so a paired operation that is met on the way up from another one is met
below the tops, and is met in both contexts or in none (`Footing.within_iff`).
-/

namespace Offload

open Context

variable {b : Border} {p q : Pairing} {ctx ctx' : Context} {root root' o o' a a' : OpRef}

/-- What is around the tops: the only block of the root, which is in no block itself. -/
structure Around (home : Option BlockRef) (root : OpRef) (ctx : Context) : Prop where
  sound : ctx.Sound
  hasRoot : ctx.HasOp root
  detached : ctx.blockOf root = none
  place : ∃ k r, home = some k ∧ ctx.regionsOf root = [r] ∧ ctx.blocksOf r = [k]

namespace Around

variable {home : Option BlockRef}

theorem holder (h : Around home root ctx) : home.bind ctx.holder = some root := by
  obtain ⟨k, r, rfl, hr, hk⟩ := h.place
  exact h.sound.coherent.holder_of_mem (r := r) (by simp [hr]) (by simp [hk])

/-- It stays around them while the rest changes, and lists the same operations. -/
theorem leaves {x : Extent} {old : Context} (h : Around home root old)
    (hleaves : ChangesOnly x old ctx) (hs : ctx.Sound) (hop : ¬x.op root)
    (hregion : ∀ r ∈ old.regionsOf root, ¬x.region r) (hblock : ∀ k, home = some k → ¬x.block k) :
    Around home root ctx ∧ ctx.childrenOf root = old.childrenOf root := by
  have hc := h.sound.coherent
  obtain ⟨k, r, rfl, hr, hk⟩ := h.place
  obtain ⟨row, hrow⟩ := hasOp_iff.1 h.hasRoot
  obtain ⟨region, hg⟩ := hasRegion_iff.1 (hc.hasRegion_of_mem (r := r) (o := root) (by simp [hr]))
  obtain ⟨block, hb⟩ := hasBlock_iff.1 (hc.hasBlock_of_mem (b := k) (r := r) (by simp [hk]))
  have hrow' := hleaves.op hrow hop
  have hg' := hleaves.region hg (hregion r (by simp [hr]))
  have hb' := hleaves.block hb (hblock k rfl)
  have hregions : ctx.regionsOf root = [r] := by
    rw [← hr, regionsOf, regionsOf, readOp_of_op hrow, readOp_of_op hrow']
  have hblocks : ctx.blocksOf r = [k] := by
    rw [← hk, blocksOf, blocksOf, readRegion_of_region hg, readRegion_of_region hg']
  refine ⟨⟨hs, hasOp_iff.2 ⟨row, hrow'⟩, ?_, k, r, rfl, hregions, hblocks⟩, ?_⟩
  · rw [← h.detached, blockOf, blockOf, readOp_of_op hrow, readOp_of_op hrow']
  · simp only [childrenOf, hregions, hr, hblocks, hk, List.flatMap_cons, List.flatMap_nil, opsOf,
      readBlock_of_block hb, readBlock_of_block hb']

end Around

/-- Two contexts with a root each around the tops, which is not paired. -/
structure Footing (b : Border) (p : Pairing) (root root' : OpRef) (ctx ctx' : Context) : Prop where
  left : Around b.home root ctx
  right : Around b.home' root' ctx'
  outside : ¬p.op.Left root
  outside' : ¬p.op.Right root'

namespace Footing

variable (f : Footing b p root root' ctx ctx') (h : Match b p ctx ctx')

include f h

/-- Neither are the regions of the roots. -/
theorem region_outside : (∀ r ∈ ctx.regionsOf root, ¬p.region.Left r) ∧
    ∀ r' ∈ ctx'.regionsOf root', ¬p.region.Right r' := by
  constructor
  · rintro r hr ⟨r', hp⟩
    have howner := (f.left.sound.coherent.regions.owner_iff r root).2 hr
    obtain ⟨row, row', hrow, -, hsame⟩ := h.region hp
    rw [ownerOf, readRegion_of_region hrow] at howner
    obtain ⟨o', -, ho⟩ := rel_some_left (howner ▸ hsame.parent)
    exact f.outside ⟨o', ho⟩
  · rintro r' hr ⟨r, hp⟩
    have howner := (f.right.sound.coherent.regions.owner_iff r' root').2 hr
    obtain ⟨row, row', -, hrow', hsame⟩ := h.region hp
    rw [ownerOf, readRegion_of_region hrow'] at howner
    obtain ⟨o, -, ho⟩ := rel_some_right (howner ▸ hsame.parent)
    exact f.outside' ⟨o, ho⟩

/-- Neither are the blocks that list the tops. -/
theorem block_outside : (∀ k, b.home = some k → ¬p.block.Left k) ∧
    ∀ k', b.home' = some k' → ¬p.block.Right k' := by
  constructor
  · rintro k hk ⟨k', hp⟩
    obtain ⟨_, r, hhome, hr, hblocks⟩ := f.left.place
    obtain rfl := Option.some.inj (hk.symm.trans hhome)
    have hregion := (f.left.sound.coherent.blocks.owner_iff k r).2 (by simp [hblocks])
    obtain ⟨row, row', hrow, -, hsame⟩ := h.block hp
    rw [regionOf, readBlock_of_block hrow] at hregion
    obtain ⟨r', -, hr'⟩ := rel_some_left (hregion ▸ hsame.parent)
    exact (f.region_outside h).1 r (by simp [hr]) ⟨r', hr'⟩
  · rintro k' hk ⟨k, hp⟩
    obtain ⟨_, r', hhome, hr, hblocks⟩ := f.right.place
    obtain rfl := Option.some.inj (hk.symm.trans hhome)
    have hregion := (f.right.sound.coherent.blocks.owner_iff k' r').2 (by simp [hblocks])
    obtain ⟨row, row', -, hrow', hsame⟩ := h.block hp
    rw [regionOf, readBlock_of_block hrow'] at hregion
    obtain ⟨r, -, hr'⟩ := rel_some_right (hregion ▸ hsame.parent)
    exact (f.region_outside h).2 r' (by simp [hr]) ⟨r, hr'⟩

end Footing

/-- Neither is what becomes of the paired part. -/
theorem Footing.spared {s : Outset} (f : Footing s.border s.pairing root root' s.left s.right)
    (h₀ : Match s.border s.pairing s.left s.right) (h : Abreast s p ctx ctx') :
    (¬p.op.Left root ∧ (∀ r ∈ s.left.regionsOf root, ¬p.region.Left r) ∧
      ∀ k, s.border.home = some k → ¬p.block.Left k) ∧
    ¬p.op.Right root' ∧ (∀ r' ∈ s.right.regionsOf root', ¬p.region.Right r') ∧
      ∀ k', s.border.home' = some k' → ¬p.block.Right k' := by
  have hc := f.left.sound.coherent
  have hc' := f.right.sound.coherent
  refine ⟨⟨?_, ?_, ?_⟩, ?_, ?_, ?_⟩
  · rintro ⟨o', ho⟩
    rcases h.newOp ho with ho | ⟨hle, -⟩
    · exact f.outside ⟨o', ho⟩
    · exact Nat.not_lt.2 hle f.left.hasRoot
  · rintro r hr ⟨r', hp⟩
    rcases h.newRegion hp with hp | ⟨hle, -⟩
    · exact (f.region_outside h₀).1 r hr ⟨r', hp⟩
    · exact Nat.not_lt.2 hle (hc.hasRegion_of_mem hr)
  · rintro k hk ⟨k', hp⟩
    rcases h.newBlock hp with hp | ⟨hle, -⟩
    · exact (f.block_outside h₀).1 k hk ⟨k', hp⟩
    · obtain ⟨_, r, hhome, -, hblocks⟩ := f.left.place
      obtain rfl := Option.some.inj (hk.symm.trans hhome)
      exact Nat.not_lt.2 hle (hc.hasBlock_of_mem (r := r) (by simp [hblocks]))
  · rintro ⟨o, ho⟩
    rcases h.newOp ho with ho | ⟨-, hle, -⟩
    · exact f.outside' ⟨o, ho⟩
    · exact Nat.not_lt.2 hle f.right.hasRoot
  · rintro r' hr ⟨r, hp⟩
    rcases h.newRegion hp with hp | ⟨-, hle⟩
    · exact (f.region_outside h₀).2 r' hr ⟨r, hp⟩
    · exact Nat.not_lt.2 hle (hc'.hasRegion_of_mem hr)
  · rintro k' hk ⟨k, hp⟩
    rcases h.newBlock hp with hp | ⟨-, hle⟩
    · exact (f.block_outside h₀).2 k' hk ⟨k, hp⟩
    · obtain ⟨_, r', hhome, -, hblocks⟩ := f.right.place
      obtain rfl := Option.some.inj (hk.symm.trans hhome)
      exact Nat.not_lt.2 hle (hc'.hasBlock_of_mem (r := r') (by simp [hblocks]))

theorem Footing.abreast {s : Outset} (f : Footing s.border s.pairing root root' s.left s.right)
    (h₀ : Match s.border s.pairing s.left s.right) (h : Abreast s p ctx ctx') (hs : ctx.Sound)
    (hs' : ctx'.Sound) : Footing s.border p root root' ctx ctx' := by
  obtain ⟨⟨hop, hregion, hblock⟩, hop', hregion', hblock'⟩ := f.spared h₀ h
  exact ⟨(f.left.leaves h.leaves hs hop hregion hblock).1,
    (f.right.leaves h.leaves' hs' hop' hregion' hblock').1, hop, hop'⟩

section Up

variable (h : Match b p ctx ctx') (f : Footing b p root root' ctx ctx')

include h f

theorem Footing.above_top {t t' : OpRef} (ht : b.top t) (hp : p.op t t') :
    ctx.above t = some root ∧ ctx'.above t' = some root' := by
  obtain ⟨row, row', hrow, hrow', hsame⟩ := h.op hp
  obtain ⟨hhome, hhome'⟩ := hsame.parent.top ht
  rw [above, above, blockOf, blockOf, readOp_of_op hrow, readOp_of_op hrow', hhome, hhome']
  exact ⟨f.left.holder, f.right.holder⟩

theorem Footing.above (ho : p.Inner b o o') : Option.Rel p.op (ctx.above o) (ctx'.above o') :=
  h.parentOp ho _ _ (f.left.sound.coherent.parentOp_ok (h.hasOp ho.1).1)
    (f.right.sound.coherent.parentOp_ok (h.hasOp ho.1).2)

/-- A paired operation is met on the way up from another one in both contexts or in none. -/
theorem Footing.within_iff (ho : p.op o o') (ha : p.op a a') :
    ctx.Within o a ↔ ctx'.Within o' a' := by
  have hroot (hw : ctx.Within root a) : False := by
    rcases within_iff_above.1 hw with rfl | ⟨t, ht, -⟩
    · exact f.outside ⟨a', ha⟩
    · rw [Context.above, f.left.detached] at ht
      cases ht
  have hroot' (hw : ctx'.Within root' a') : False := by
    rcases within_iff_above.1 hw with rfl | ⟨t, ht, -⟩
    · exact f.outside' ⟨a, ha⟩
    · rw [Context.above, f.right.detached] at ht
      cases ht
  constructor
  · intro hw
    induction hw using Relation.ReflTransGen.head_induction_on generalizing o' with
    | refl =>
      rw [(p.op.iff ho ha).1 rfl]
      exact .refl a'
    | @head o t hstep hw ih =>
      by_cases htop : b.top o
      · rw [(f.above_top h htop ho).1] at hstep
        exact (hroot (Option.some.inj hstep ▸ hw)).elim
      · have habove := f.above h ⟨ho, htop⟩
        rw [hstep] at habove
        obtain ⟨t', ht', ht⟩ := rel_some_left habove
        exact (within_of_above ht').trans (ih ht)
  · intro hw
    induction hw using Relation.ReflTransGen.head_induction_on generalizing o with
    | refl =>
      rw [(p.op.iff ho ha).2 rfl]
      exact .refl a
    | @head o' t' hstep hw ih =>
      by_cases htop : b.top o
      · rw [(f.above_top h htop ho).2] at hstep
        exact (hroot' (Option.some.inj hstep ▸ hw)).elim
      · have habove := f.above h ⟨ho, htop⟩
        rw [hstep] at habove
        obtain ⟨t, ht', ht⟩ := rel_some_right habove
        exact (within_of_above ht').trans (ih ht)

/-- What is paired is in both roots or in none. -/
theorem Footing.within_root_iff (ho : p.op o o') : ctx.Within o root ↔ ctx'.Within o' root' := by
  constructor
  · intro hw
    induction hw using Relation.ReflTransGen.head_induction_on generalizing o' with
    | refl => exact absurd ⟨o', ho⟩ f.outside
    | @head o t hstep hw ih =>
      by_cases htop : b.top o
      · exact within_of_above (f.above_top h htop ho).2
      · have habove := f.above h ⟨ho, htop⟩
        rw [hstep] at habove
        obtain ⟨t', ht', ht⟩ := rel_some_left habove
        exact (within_of_above ht').trans (ih ht)
  · intro hw
    induction hw using Relation.ReflTransGen.head_induction_on generalizing o with
    | refl => exact absurd ⟨o, ho⟩ f.outside'
    | @head o' t' hstep hw ih =>
      by_cases htop : b.top o
      · exact within_of_above (f.above_top h htop ho).1
      · have habove := f.above h ⟨ho, htop⟩
        rw [hstep] at habove
        obtain ⟨t, ht', ht⟩ := rel_some_right habove
        exact (within_of_above ht').trans (ih ht)

theorem Footing.isAncestor (ho : p.op o o') (ha : p.op a a') :
    Agree (· = ·) (ctx.isAncestor a o) (ctx'.isAncestor a' o') := by
  intro x x' hx hx'
  have hiff := f.left.sound.grounded.isAncestor_iff f.left.sound.coherent (a := a) (h.hasOp ho).1
  have hiff' := f.right.sound.grounded.isAncestor_iff f.right.sound.coherent (a := a')
    (h.hasOp ho).2
  rw [hx, Except.ok.injEq] at hiff
  rw [hx', Except.ok.injEq] at hiff'
  rw [Bool.eq_iff_iff, hiff, hiff', f.within_iff h ho ha]

/-- A top is around what is paired and in the root. -/
theorem Footing.exists_top (ho : p.Inner b o o') (hw : ctx.Within o root) :
    ∃ t, b.top t ∧ ctx.Around t o := by
  induction hw using Relation.ReflTransGen.head_induction_on generalizing o' with
  | refl => exact absurd ⟨o', ho.1⟩ f.outside
  | @head o t hstep hw ih =>
    have habove := f.above h ho
    rw [hstep] at habove
    obtain ⟨t', -, ht⟩ := rel_some_left habove
    by_cases htop : b.top t
    · exact ⟨t, htop, t, hstep, .refl t⟩
    · obtain ⟨top, htop, haround⟩ := ih ⟨ht, htop⟩
      exact ⟨top, htop, haround.of_above hstep⟩

/-- The function that is met first on the way up is paired. -/
theorem Footing.enclosing (ho : p.Inner b o o') : Agree (Option.Rel p.op)
    (ctx.enclosing (·.kind = .func) o) (ctx'.enclosing (·.kind = .func) o') := by
  obtain ⟨depth, hdepth, hsize⟩ := f.left.sound.grounded.exists_depth f.left.sound.coherent
  obtain ⟨depth', hdepth', hsize'⟩ := f.right.sound.grounded.exists_depth f.right.sound.coherent
  have key (n n' : Nat) {o o' : OpRef} (ho : p.Inner b o o') (hn : depth o < n)
      (hn' : depth' o' < n') : Agree (Option.Rel p.op)
        (ctx.enclosingWithin (·.kind = .func) n o)
        (ctx'.enclosingWithin (·.kind = .func) n' o') := by
    induction n generalizing n' o o' with
    | zero => omega
    | succ n ih =>
      obtain ⟨n', rfl⟩ := Nat.exists_eq_add_of_lt (Nat.zero_lt_of_lt hn')
      rw [Nat.zero_add] at hn' ⊢
      rw [enclosingWithin, enclosingWithin]
      refine (h.parentOp ho).bind_ok fun t t' hrun hrun' ht => ?_
      obtain ⟨-, rfl⟩ := parentOp_eq_ok hrun
      obtain ⟨-, rfl⟩ := parentOp_eq_ok hrun'
      obtain ⟨hx, hx'⟩ | ⟨t, t', hx, hx', ht⟩ := rel_cases ht
      · simp only [hx, hx']
        exact .pure .none
      simp only [hx, hx']
      refine (h.op_agree ht).bind fun row row' hrow => ?_
      refine .ite (by rw [hrow.kind]) (fun _ => .pure (.some ht)) fun hkind => ?_
      have := hdepth o t hx
      have := hdepth' o' t' hx'
      exact ih n' ⟨ht, fun htop => hkind (decide_eq_true (hrow.func htop))⟩ (by omega) (by omega)
  exact key _ _ ho ((hsize o (h.hasOp ho.1).1).trans (Nat.lt_succ_self _))
    ((hsize' o' (h.hasOp ho.1).2).trans (Nat.lt_succ_self _))

end Up

/-! ## Walks -/

section Walk

variable {α β : Type} {r : α → β → Prop}

theorem walkAll_agree {step : α → Unit → Except Fault (Unit × Bool)}
    {step' : β → Unit → Except Fault (Unit × Bool)}
    (hstep : ∀ x y, r x y → Agree (· = ·) (step x ()) (step' y ())) {l : List α} {l' : List β}
    (hl : List.Forall₂ r l l') : Agree (· = ·) (walkAll step l ()) (walkAll step' l' ()) := by
  induction hl with
  | nil => exact .pure rfl
  | cons hx _ ih =>
    rw [walkAll, walkAll]
    refine (hstep _ _ hx).bind ?_
    rintro ⟨⟨⟩, stopped⟩ _ rfl
    cases stopped with
    | true => exact .pure rfl
    | false => exact ih

/-- A walk through a paired operation goes on as its visits do. -/
theorem Match.walkWithin (h : Match b p ctx ctx')
    {visit visit' : OpRef → Unit → Except Fault (Unit × WalkStep)}
    (hvisit : ∀ o o', p.op o o' → Agree (· = ·) (visit o ()) (visit' o' ())) (n n' : Nat)
    (ho : p.op o o') :
    Agree (· = ·) (ctx.walkWithin visit n o ()) (ctx'.walkWithin visit' n' o' ()) := by
  induction n generalizing n' o o' with
  | zero => exact .throw_left
  | succ n ih =>
    cases n' with
    | zero => exact .throw_right
    | succ n' =>
      rw [Context.walkWithin, Context.walkWithin]
      refine (hvisit o o' ho).bind ?_
      rintro ⟨⟨⟩, step⟩ _ rfl
      cases step with
      | stop => exact .pure rfl
      | skip => exact .pure rfl
      | advance =>
        refine (h.op_agree ho).bind fun row row' hrow => walkAll_agree (fun t t' ht => ?_) hrow.regions
        refine (h.region_agree ht).bind fun row row' hrow =>
          walkAll_agree (fun k k' hk => ?_) hrow.blocks
        exact (h.block_agree hk).bind fun row row' hrow =>
          walkAll_agree (fun c c' hc => ih n' hc.1) hrow.ops

end Walk

/-! ## Effects and places -/

theorem Match.isReadOnlyWithin (h : Match b p ctx ctx') (n n' : Nat) (ho : p.op o o') :
    Agree (· = ·) (ctx.isReadOnlyWithin n o) (ctx'.isReadOnlyWithin n' o') := by
  induction n generalizing n' o o' with
  | zero => exact .throw_left
  | succ n ih =>
    cases n' with
    | zero => exact .throw_right
    | succ n' =>
      rw [Context.isReadOnlyWithin, Context.isReadOnlyWithin]
      refine (h.kind_agree ho).bind ?_
      rintro kind _ rfl
      cases kind.isRecursive with
      | false => exact .pure rfl
      | true =>
        refine (h.op_agree ho).bind fun row row' hrow => ?_
        refine Agree.bind (r := (· = ·)) (.allM hrow.regions fun t t' ht => ?_) ?_
        · refine (h.region_agree ht).bind fun row row' hrow => .allM hrow.blocks fun k k' hk => ?_
          exact (h.block_agree hk).bind fun row row' hrow => .allM hrow.ops fun c c' hc =>
            ih n' hc.1
        · rintro inside _ rfl
          cases inside <;> exact .pure rfl

theorem Match.isReadOnly (h : Match b p ctx ctx') (ho : p.op o o') :
    Agree (· = ·) (ctx.isReadOnly o) (ctx'.isReadOnly o') := h.isReadOnlyWithin _ _ ho

theorem Match.previous (h : Match b p ctx ctx') (ho : p.Inner b o o') :
    Agree (Option.Rel (p.Inner b)) (ctx.previous o) (ctx'.previous o') := by
  refine (h.op_agree ho.1).bind fun row row' hrow => ?_
  obtain ⟨hx, hx'⟩ | ⟨k, k', hx, hx', hk⟩ := rel_cases (hrow.parent.inner ho.2)
  · simp only [hx, hx']
    exact .pure .none
  simp only [hx, hx']
  refine (h.block_agree hk).bind fun row row' hrow => ?_
  simp only [p.op.idxOf? ho.1 (hrow.ops.imp fun _ _ => And.left)]
  split
  · exact .pure (forall₂_getElem? hrow.ops _)
  · exact .pure .none

end Offload
