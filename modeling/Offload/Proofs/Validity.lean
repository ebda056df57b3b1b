import Offload.Proofs.Ir.Scope
import Offload.Proofs.Kind
import Offload.Validity

/-!
# Validity as a property

In a sound context the checks of use chains and of links find nothing, and each
of the others finds nothing iff every operation in the tree has the property that
it is about (`Valid`): its blocks end as they must (`Terminated`), its operands
are in scope, and it has the shape of its kind. So a program is valid, as far as
the checks can tell, iff it has these properties (`findings_isEmpty_iff`).
-/

namespace Offload.Context

variable {ctx : Context}

/-- A block ends with its only terminator. -/
def EndsWell (ctx : Context) (b : BlockRef) : Prop :=
  ∃ before last, ctx.opsOf b = before ++ [last] ∧ (ctx.kindOf last).isTerminator ∧
    ∀ o ∈ before, ¬(ctx.kindOf o).isTerminator

/-- The blocks of an operation end as they must. -/
def Terminated (ctx : Context) (o : OpRef) : Prop :=
  (ctx.kindOf o).needsTerminator → ∀ r ∈ ctx.regionsOf o, ∀ b ∈ ctx.blocksOf r, ctx.EndsWell b

/-- An operation has the parts that a shape says. -/
structure Fits (ctx : Context) (shape : Shape) (o : OpRef) : Prop where
  operands : shape.operands.admits (ctx.operandsOf o).length
  results : ∀ n, shape.results = some n → (ctx.results o).length = n
  regions : List.Forall₂ (fun r count => count.admits (ctx.blocksOf r).length) (ctx.regionsOf o)
    shape.regions
  attributes : attributeFlaws shape.attributes (ctx.attributesOf o) = []

/-- An operation has the shape of its kind. -/
structure Shaped (ctx : Context) (o : OpRef) : Prop where
  fits : ∀ shape, (ctx.kindOf o).shape? = some shape → ctx.Fits shape o
  counts : ctx.kindOf o = .loop → ∀ r, (ctx.regionsOf o).head? = some r →
    ∀ b, (ctx.blocksOf r).head? = some b → ctx.args b ≠ []

/-- What makes a program valid. -/
structure Valid (ctx : Context) (root : OpRef) : Prop where
  terminated : ∀ o, ctx.Within o root → ctx.Terminated o
  inScope : ∀ o, ctx.Within o root → ∀ v ∈ ctx.operandsOf o, ctx.InScope o v
  shaped : ∀ o, ctx.Within o root → ctx.Shaped o

/-! ## Checks of a tree -/

/-- A check of a tree finds nothing iff it finds nothing at any operation. -/
theorem Sound.flatMapM_subtree_eq_nil (h : ctx.Sound) {root : OpRef} (hroot : ctx.HasOp root)
    {α : Type} {check : OpRef → Except Fault (List α)} :
    (ctx.subtree root >>= fun tree => tree.flatMapM check) = .ok [] ↔
      ∀ o, ctx.Within o root → check o = .ok [] := by
  obtain ⟨tree, htree⟩ := h.grounded.subtree_ok h.coherent hroot
  rw [htree, Outcome.ok_bind, Outcome.flatMapM_eq_nil]
  simp only [h.coherent.mem_subtree_iff htree]

/-! ## Terminators -/

theorem mapM_kind {os : List OpRef} (hos : ∀ o ∈ os, ctx.HasOp o) :
    os.mapM ctx.kind = .ok (os.map ctx.kindOf) := by
  refine Outcome.mapM_eq_ok.2 ?_
  rw [List.forall₂_map_right_iff, List.forall₂_same]
  exact fun o ho => kind_ok (hos o ho)

/-- The end of a list, and how often something occurs in it. -/
theorem endsWith_iff {α : Type} {p : α → Bool} {l : List α} :
    (l.getLast?.any p && decide ((l.filter p).length = 1)) = true ↔
      ∃ before last, l = before ++ [last] ∧ p last ∧ ∀ a ∈ before, ¬p a := by
  rcases List.eq_nil_or_concat l with rfl | ⟨before, last, rfl⟩
  · simp
  · rw [List.concat_eq_append, Bool.and_eq_true, decide_eq_true_eq, List.getLast?_concat,
      Option.any_some, List.filter_append, List.length_append]
    constructor
    · rintro ⟨hlast, hcount⟩
      refine ⟨before, last, rfl, hlast, fun a ha hpa => ?_⟩
      have hpos := List.length_pos_of_mem (List.mem_filter.2 ⟨ha, hpa⟩)
      rw [List.filter_cons_of_pos hlast] at hcount
      simp only [List.filter_nil, List.length_singleton] at hcount
      omega
    · rintro ⟨before', last', heq, hlast, hbefore⟩
      obtain ⟨rfl, hsingle⟩ := List.append_inj' heq rfl
      obtain rfl := List.singleton_inj.1 hsingle
      refine ⟨hlast, ?_⟩
      rw [List.filter_eq_nil_iff.2 hbefore, List.filter_cons_of_pos hlast]
      rfl

theorem Coherent.badTerminator?_eq_none (h : ctx.Coherent) {kind : OpKind} {o : OpRef}
    {b : BlockRef} (hb : ctx.HasBlock b) :
    ctx.badTerminator? kind o b = .ok none ↔ ctx.EndsWell b := by
  obtain ⟨row, hrow⟩ := hasBlock_iff.1 hb
  have hops : ctx.opsOf b = row.ops := readBlock_of_block hrow _ _
  have hex : ∀ o ∈ row.ops, ctx.HasOp o := fun o ho => h.hasOp_of_mem (hops ▸ ho)
  rw [badTerminator?, hrow, Outcome.ok_bind, mapM_kind hex, Outcome.ok_bind]
  have hiff : ctx.EndsWell b ↔ ((row.ops.map ctx.kindOf).getLast?.any OpKind.isTerminator &&
      decide (((row.ops.map ctx.kindOf).filter OpKind.isTerminator).length = 1)) = true := by
    rw [EndsWell, hops, List.getLast?_map, Option.any_map, List.filter_map, List.length_map]
    exact endsWith_iff.symm
  rw [hiff]
  dsimp only
  split
  · rename_i hend
    exact iff_of_true rfl hend
  · rename_i hend
    refine iff_of_false (fun hrun => ?_) hend
    simp only [Outcome.pure_eq_ok, reduceCtorEq] at hrun

theorem Coherent.checkTerminatorsOf_eq_nil (h : ctx.Coherent) {o : OpRef} (ho : ctx.HasOp o) :
    ctx.checkTerminatorsOf o = .ok [] ↔ ctx.Terminated o := by
  obtain ⟨row, hrow⟩ := hasOp_iff.1 ho
  have hregions : ctx.regionsOf o = row.regions := readOp_of_op hrow _ _
  rw [checkTerminatorsOf, kind_ok ho, Outcome.ok_bind, Terminated]
  split
  · rename_i hneeds
    rw [hrow, Outcome.ok_bind, Outcome.flatMapM_eq_nil, ← hregions, forall_prop_of_true hneeds]
    refine forall₂_congr fun r hr => ?_
    obtain ⟨region, hregion⟩ := hasRegion_iff.1 (h.hasRegion_of_mem hr)
    have hblocks : ctx.blocksOf r = region.blocks := readRegion_of_region hregion _ _
    rw [hregion, Outcome.ok_bind, Outcome.filterMapM_eq_nil, ← hblocks]
    exact forall₂_congr fun b hb => h.badTerminator?_eq_none (h.hasBlock_of_mem hb)
  · rename_i hneeds
    exact iff_of_true rfl fun hn => absurd hn hneeds

/-! ## Scoping -/

theorem Sound.eq_of_within_of_blockOf (h : ctx.Sound) {o p : OpRef} {b : BlockRef}
    (ho : ctx.blockOf o = some b) (hp : ctx.blockOf p = some b) (hw : ctx.Within o p) : o = p := by
  have habove : ctx.above o = ctx.above p := by rw [above, above, ho, hp]
  rcases within_iff_above.1 hw with rfl | ⟨a, ha, hw⟩
  · rfl
  · exact absurd hw (h.grounded.not_within_above (habove.symm.trans ha))

/-- What the way up meets: the operation around another one, or that itself, that
    stands in a block. -/
def SeenFrom (ctx : Context) (b : BlockRef) (after : Option Nat) (o : OpRef) : Prop :=
  ∃ w, ctx.Within o w ∧ ctx.blockOf w = some b ∧
    ∀ position, after = some position → ∃ n, (ctx.opsOf b).idxOf? w = some n ∧ position < n

theorem Sound.isVisible_iff (h : ctx.Sound) {o : OpRef} (ho : ctx.HasOp o) (b : BlockRef)
    (after : Option Nat) :
    (ctx.isVisible b after o = .ok true ↔ ctx.SeenFrom b after o) ∧
      ∃ answer, ctx.isVisible b after o = .ok answer := by
  have hc := h.coherent
  obtain ⟨depth, hdepth, hsize⟩ := h.grounded.exists_depth hc
  have key {n : Nat} {o : OpRef} (ho : ctx.HasOp o) (hn : depth o < n) :
      (ctx.isVisibleWithin b after n o = .ok true ↔ ctx.SeenFrom b after o) ∧
        ∃ answer, ctx.isVisibleWithin b after n o = .ok answer := by
    induction n generalizing o with
    | zero => omega
    | succ n ih =>
      obtain ⟨row, hrow⟩ := hasOp_iff.1 ho
      have hparent : ctx.blockOf o = row.parent := readOp_of_op hrow _ _
      simp only [isVisibleWithin, hrow, Outcome.ok_bind, ← hparent]
      by_cases hb : ctx.blockOf o = some b
      · -- no other operation on the way up stands in this block
        have hself (w : OpRef) (hw : ctx.Within o w) (hwb : ctx.blockOf w = some b) : o = w :=
          h.eq_of_within_of_blockOf hb hwb hw
        rw [if_pos hb]
        cases after with
        | none =>
          refine ⟨iff_of_true rfl ⟨o, .refl o, hb, fun _ e => by cases e⟩, true, rfl⟩
        | some position =>
          obtain ⟨block, hblock⟩ := hasBlock_iff.1 (hc.hasBlock_of_blockOf hb)
          have hops : ctx.opsOf b = block.ops := readBlock_of_block hblock _ _
          simp only [hblock, Outcome.ok_bind, ← hops, Outcome.pure_eq_ok]
          refine ⟨?_, _, rfl⟩
          rw [Option.any_eq_true]
          constructor
          · rintro ⟨n, hn, hlt⟩
            refine ⟨o, .refl o, hb, fun p e => ?_⟩
            obtain rfl := Option.some.inj e
            exact ⟨n, hn, by simpa using hlt⟩
          · rintro ⟨w, hw, hwb, hafter⟩
            obtain rfl := hself w hw hwb
            obtain ⟨n, hn, hlt⟩ := hafter position rfl
            exact ⟨n, hn, by simpa using hlt⟩
      · rw [if_neg hb, hc.parentOp_ok ho, Outcome.ok_bind]
        cases hp : ctx.above o with
        | none =>
          refine ⟨iff_of_false (by simp) ?_, false, rfl⟩
          rintro ⟨w, hw, hwb, -⟩
          rcases within_iff_above.1 hw with rfl | ⟨p, hp', -⟩
          · exact hb hwb
          · rw [hp] at hp'
            cases hp'
        | some p =>
          have hlt := hdepth o p hp
          obtain ⟨hiff, hok⟩ := ih (hc.hasOp_of_above hp).2 (by omega)
          refine ⟨hiff.trans ?_, hok⟩
          constructor
          · rintro ⟨w, hw, hwb⟩
            exact ⟨w, (within_of_above hp).trans hw, hwb⟩
          · rintro ⟨w, hw, hwb⟩
            rcases within_iff_above.1 hw with rfl | ⟨p', hp', hw⟩
            · exact absurd hwb.1 hb
            · obtain rfl := Option.some.inj (hp.symm.trans hp')
              exact ⟨w, hw, hwb⟩
  exact key ho (by have := hsize o ho; omega)

/-- The check of scope finds out whether a value is in scope. -/
theorem Sound.inScope_iff (h : ctx.Sound) {o : OpRef} {v : ValueRef} {source : ValueDef}
    (ho : ctx.HasOp o) (hv : ctx.sourceOf v = some source) :
    (ctx.inScope source o = .ok true ↔ ctx.InScope o v) ∧
      ∃ answer, ctx.inScope source o = .ok answer := by
  have hc := h.coherent
  cases source with
  | argument b n =>
    obtain ⟨hiff, hok⟩ := h.isVisible_iff ho b none
    refine ⟨hiff.trans ?_, hok⟩
    simp only [SeenFrom, InScope, hv, reduceCtorEq, false_imp_iff, implies_true, and_true]
  | result p n =>
    have hp : ctx.HasOp p := by
      by_contra hn
      have hm := (hc.values.result_iff p n v).2 hv
      rw [results_eq_readOp, readOp_of_not_hasOp hn] at hm
      cases hm
    obtain ⟨row, hrow⟩ := hasOp_iff.1 hp
    have hparent : ctx.blockOf p = row.parent := readOp_of_op hrow _ _
    simp only [inScope, hrow, Outcome.ok_bind, InScope, hv]
    cases hb : row.parent with
    | none =>
      refine ⟨iff_of_false (by simp) ?_, false, rfl⟩
      rintro ⟨w, -, b, before, after, hops, hm⟩
      have hpb := (hc.ops.owner_iff p b).2 (by simp [hops, hm])
      rw [hparent, hb] at hpb
      cases hpb
    | some b =>
      rw [hb] at hparent
      obtain ⟨block, hblock⟩ := hasBlock_iff.1 (hc.hasBlock_of_blockOf hparent)
      have hops : ctx.opsOf b = block.ops := readBlock_of_block hblock _ _
      simp only [hblock, Outcome.ok_bind, ← hops]
      obtain ⟨before, after, hsplit⟩ := List.append_of_mem ((hc.ops.owner_iff p b).1 hparent)
      have hnodup := hsplit ▸ hc.ops.nodup b
      have hbefore : p ∉ before := fun hm =>
        (List.nodup_append.1 hnodup).2.2 p hm p List.mem_cons_self rfl
      have hidx : (ctx.opsOf b).idxOf? p = some before.length :=
        Position.idxOf?_eq_some_iff.2 ⟨before, after, hsplit, hbefore, rfl⟩
      rw [hidx]
      obtain ⟨hiff, hok⟩ := h.isVisible_iff ho b (some before.length)
      refine ⟨hiff.trans (exists_congr fun w => and_congr_right fun _ => ?_), hok⟩
      constructor
      · rintro ⟨-, hafter⟩
        obtain ⟨k, hk, hlt⟩ := hafter _ rfl
        obtain ⟨before', after', hsplit', -, rfl⟩ := Position.idxOf?_eq_some_iff.1 hk
        refine ⟨b, before', after', hsplit', ?_⟩
        -- the earlier position lies before the later one
        have hget : (ctx.opsOf b)[before.length]? = some p := by simp [hsplit]
        rw [hsplit', List.getElem?_append_left hlt] at hget
        exact List.mem_of_getElem? hget
      · rintro ⟨c, before', after', hsplit', hm⟩
        obtain rfl := hc.ops.owner_unique (p := b) (q := c) ((hc.ops.owner_iff p b).1 hparent)
          (by simp [hsplit', hm])
        have hw : w ∉ before' := fun hmw => by
          have := hsplit' ▸ hc.ops.nodup b
          exact (List.nodup_append.1 this).2.2 w hmw w List.mem_cons_self rfl
        refine ⟨(hc.ops.owner_iff w b).2 (by simp [hsplit']), fun k e => ?_⟩
        obtain rfl := Option.some.inj e
        refine ⟨before'.length, Position.idxOf?_eq_some_iff.2 ⟨_, _, hsplit', hw, rfl⟩, ?_⟩
        obtain ⟨mid, mid', rfl⟩ := List.append_of_mem hm
        have heq : before ++ p :: after = mid ++ p :: (mid' ++ w :: after') := by
          rw [← hsplit, hsplit']
          simp
        obtain ⟨rfl, -⟩ := Position.split_unique hnodup heq
        simp

theorem slotsOf_ok {o : OpRef} (ho : ctx.HasOp o) :
    ctx.slotsOf o = .ok ((ctx.operandsOf o).zipIdx.map fun (v, n) => ⟨v, ⟨o, n⟩⟩) := by
  obtain ⟨row, hrow⟩ := hasOp_iff.1 ho
  rw [slotsOf, hrow, operandsOf, readOp_of_op hrow]
  rfl

theorem Sound.outOfScope?_eq_none (h : ctx.Sound) {s : Slot} (ho : ctx.HasOp s.use.user) :
    ctx.outOfScope? s = .ok none ↔ ctx.InScope s.use.user s.value := by
  rw [outOfScope?]
  cases hv : ctx.values[s.value.index]? with
  | none =>
    refine iff_of_false (fun hrun => ?_) ?_
    · obtain ⟨row, hrow, -⟩ := Outcome.bind_eq_ok.1 hrun
      rw [value_eq_ok, hv] at hrow
      cases hrow
    · rintro ⟨w, -, hw⟩
      rwa [sourceOf, hv] at hw
  | some row =>
    obtain ⟨hiff, answer, hanswer⟩ := h.inScope_iff ho
      (show ctx.sourceOf s.value = some row.source by rw [sourceOf, hv]; rfl)
    simp only [value_eq_ok.2 hv, Outcome.ok_bind, ← hiff, hanswer, kind_ok ho]
    cases answer <;> simp

theorem Sound.checkScoping_eq_nil (h : ctx.Sound) {root : OpRef} (hroot : ctx.HasOp root) :
    ctx.checkScoping root = .ok [] ↔
      ∀ o, ctx.Within o root → ∀ v ∈ ctx.operandsOf o, ctx.InScope o v := by
  refine (h.flatMapM_subtree_eq_nil hroot).trans (forall₂_congr fun o hw => ?_)
  have ho := h.coherent.hasOp_of_within' hw hroot
  rw [slotsOf_ok ho, Outcome.ok_bind, Outcome.filterMapM_eq_nil, List.forall_mem_map]
  constructor
  · intro hall v hv
    obtain ⟨n, hn⟩ := List.mem_iff_getElem?.1 hv
    exact (h.outOfScope?_eq_none (s := ⟨v, ⟨o, n⟩⟩) ho).1
      (hall (v, n) (List.mem_zipIdx_iff_getElem?.2 hn))
  · rintro hall ⟨v, n⟩ hm
    exact (h.outOfScope?_eq_none (s := ⟨v, ⟨o, n⟩⟩) ho).2
      (hall v (List.mem_of_getElem? (List.mem_zipIdx_iff_getElem?.1 hm)))

/-! ## Use chains and links -/

theorem Coherent.definedBy_ok (hc : ctx.Coherent) {o : OpRef} (ho : ctx.HasOp o) :
    ∃ vs, ctx.definedBy o = .ok vs := by
  obtain ⟨row, hrow⟩ := hasOp_iff.1 ho
  have hregions : ctx.regionsOf o = row.regions := readOp_of_op hrow _ _
  have hall (r : RegionRef) (hr : r ∈ row.regions) :
      ∃ vs, (do return (← ctx.region r).blocks.flatMap ctx.args) = Except.ok vs := by
    obtain ⟨region, hregion⟩ := hasRegion_iff.1 (hc.hasRegion_of_mem (hregions ▸ hr))
    exact ⟨_, by rw [hregion]; rfl⟩
  obtain ⟨args, hargs⟩ := Outcome.flatMapM_ok hall
  exact ⟨_, by rw [definedBy, hrow, Outcome.ok_bind, hargs]; rfl⟩

/-- A slot that is held is in the chain of its value. -/
theorem Coherent.missingUse?_eq_none (hc : ctx.Coherent) {s : Slot}
    (hs : (ctx.heldBy s.use.user)[s.use.slot]? = some s.value) :
    ctx.missingUse? s = .ok none := by
  rw [missingUse?, if_pos (List.contains_iff_mem.2 ((hc.uses.mem_iff s.value s.use).2 hs))]
  rfl

/-- A slot in a chain is held, so it is among the slots of the tree if its operation
    is. -/
theorem Sound.falseUse?_eq_none (h : ctx.Sound) {root : OpRef} {slots : List Slot}
    (hslots : ∀ s : Slot, ctx.Within s.use.user root →
      (ctx.heldBy s.use.user)[s.use.slot]? = some s.value → s ∈ slots)
    {v : ValueRef} {u : Use} (hu : u ∈ ctx.uses.get v) :
    ctx.falseUse? root slots v u = .ok none := by
  have hheld := (h.coherent.uses.mem_iff v u).1 hu
  have huser : ctx.HasOp u.user := by
    by_contra hn
    rw [heldBy, readOp_of_not_hasOp hn] at hheld
    cases hheld
  have hlive : ¬ctx.isErased u.user := fun he => by
    rw [heldBy_eq, if_pos he] at hheld
    cases hheld
  obtain ⟨answer, hanswer⟩ := h.coherent.isAncestorWithin_ok root (n := ctx.ops.size + 1) huser
  have hiff := h.grounded.isAncestor_iff h.coherent (a := root) huser
  rw [falseUse?, if_neg hlive]
  rw [show ctx.isAncestor root u.user = .ok answer from hanswer] at hiff ⊢
  cases answer with
  | false => rfl
  | true => simp [hslots ⟨v, u⟩ (hiff.1 rfl) hheld]

/-- The slots of operations are those with a value in them. -/
theorem mem_slotsOf_iff {os : List OpRef} {slots : List Slot} (hex : ∀ o ∈ os, ctx.HasOp o)
    (hrun : os.flatMapM ctx.slotsOf = .ok slots) (s : Slot) :
    s ∈ slots ↔ s.use.user ∈ os ∧ (ctx.operandsOf s.use.user)[s.use.slot]? = some s.value := by
  obtain ⟨lists, hlists, rfl⟩ := Outcome.flatMapM_eq_ok.1 hrun
  rw [List.mem_flatten]
  constructor
  · rintro ⟨l, hl, hs⟩
    obtain ⟨o, ho, hrun⟩ := Outcome.exists_of_mem_right hlists hl
    obtain rfl := Except.ok.inj ((slotsOf_ok (hex o ho)).symm.trans hrun)
    obtain ⟨⟨v, n⟩, hvn, rfl⟩ := List.mem_map.1 hs
    exact ⟨ho, List.mem_zipIdx_iff_getElem?.1 hvn⟩
  · rintro ⟨ho, hs⟩
    obtain ⟨l, hl, hrun⟩ := Outcome.exists_of_mem_left hlists ho
    obtain rfl := Except.ok.inj ((slotsOf_ok (hex _ ho)).symm.trans hrun)
    exact ⟨_, hl, List.mem_map.2 ⟨(s.value, s.use.slot), List.mem_zipIdx_iff_getElem?.2 hs, rfl⟩⟩

/-- The slots of operations that are not erased are those that hold a value. -/
theorem mem_slots_iff {os : List OpRef} {slots : List Slot} (hex : ∀ o ∈ os, ctx.HasOp o)
    (hlive : ∀ o ∈ os, ¬ctx.isErased o) (hrun : os.flatMapM ctx.slotsOf = .ok slots) (s : Slot) :
    s ∈ slots ↔ s.use.user ∈ os ∧ (ctx.heldBy s.use.user)[s.use.slot]? = some s.value := by
  rw [mem_slotsOf_iff hex hrun]
  refine and_congr_right fun ho => ?_
  rw [heldBy_eq, if_neg (hlive _ ho)]

/-- In a sound context the use chains of what is not erased agree with the
    operands. -/
theorem Sound.checkUseChains_eq_nil (h : ctx.Sound) {root : OpRef} (hroot : ctx.HasOp root)
    (hlive : ∀ o, ctx.Within o root → ¬ctx.isErased o) : ctx.checkUseChains root = .ok [] := by
  have hc := h.coherent
  obtain ⟨tree, htree⟩ := h.grounded.subtree_ok hc hroot
  have hwithin (o : OpRef) : o ∈ tree ↔ ctx.Within o root := hc.mem_subtree_iff htree
  have hex (o : OpRef) (ho : o ∈ tree) : ctx.HasOp o := hc.hasOp_of_within' ((hwithin o).1 ho) hroot
  obtain ⟨slots, hslots⟩ : ∃ slots, tree.flatMapM ctx.slotsOf = .ok slots :=
    Outcome.flatMapM_ok fun o ho => ⟨_, slotsOf_ok (hex o ho)⟩
  obtain ⟨defined, hdefined⟩ : ∃ defined, tree.flatMapM ctx.definedBy = .ok defined :=
    Outcome.flatMapM_ok fun o ho => hc.definedBy_ok (hex o ho)
  have hslot := mem_slots_iff hex (fun o ho => hlive o ((hwithin o).1 ho)) hslots
  have hmissing : slots.eraseDups.filterMapM ctx.missingUse? = .ok [] :=
    Outcome.filterMapM_eq_nil.2 fun s hs =>
      hc.missingUse?_eq_none ((hslot s).1 (List.mem_eraseDups.1 hs)).2
  have hwrong (values : List ValueRef) : values.flatMapM (fun v =>
      (ctx.uses.get v).filterMapM (ctx.falseUse? root slots.eraseDups v)) = .ok [] :=
    Outcome.flatMapM_eq_nil.2 fun v _ => Outcome.filterMapM_eq_nil.2 fun u hu =>
      h.falseUse?_eq_none (fun s hw hs =>
        List.mem_eraseDups.2 ((hslot s).2 ⟨(hwithin _).2 hw, hs⟩)) hu
  simp only [checkUseChains, htree, Outcome.ok_bind, hslots, hdefined, hmissing, hwrong]
  rfl

/-- In a coherent context everything that is listed records its owner. -/
theorem Sound.checkLinks_eq_nil (h : ctx.Sound) {root : OpRef} (hroot : ctx.HasOp root)
    (hlive : ∀ o, ctx.Within o root → ¬ctx.isErased o) : ctx.checkLinks root = .ok [] := by
  have hc := h.coherent
  refine (h.flatMapM_subtree_eq_nil hroot).2 fun o hw => ?_
  obtain ⟨row, hrow⟩ := hasOp_iff.1 (hc.hasOp_of_within' hw hroot)
  have hregions : ctx.regionsOf o = row.regions := readOp_of_op hrow _ _
  rw [hrow, Outcome.ok_bind, ← hregions, Outcome.flatMapM_eq_nil]
  intro r hr
  obtain ⟨region, hregion⟩ := hasRegion_iff.1 (hc.hasRegion_of_mem hr)
  have hblocks : ctx.blocksOf r = region.blocks := readRegion_of_region hregion _ _
  have howner : ctx.ownerOf r = region.parent := readRegion_of_region hregion _ _
  have hlinks : region.blocks.flatMapM (ctx.checkBlockLinks r) = .ok [] := by
    refine Outcome.flatMapM_eq_nil.2 fun b hb => ?_
    rw [← hblocks] at hb
    obtain ⟨block, hblock⟩ := hasBlock_iff.1 (hc.hasBlock_of_mem hb)
    have hops : ctx.opsOf b = block.ops := readBlock_of_block hblock _ _
    have hparent : ctx.regionOf b = block.parent := readBlock_of_block hblock _ _
    have hopLinks : block.ops.flatMapM (ctx.checkOpLink b) = .ok [] := by
      refine Outcome.flatMapM_eq_nil.2 fun p hp => ?_
      rw [← hops] at hp
      obtain ⟨operation, hoperation⟩ := hasOp_iff.1 (hc.hasOp_of_mem hp)
      have hplace : operation.parent = some b :=
        (readOp_of_op hoperation _ _).symm.trans ((hc.ops.owner_iff p b).2 hp)
      have habove : ctx.above p = some o := (hc.above_of_mem hp).trans (hc.holder_of_mem hr hb)
      have hmark := hlive p ((within_of_above habove).trans hw)
      rw [isErased_eq_readOp, readOp_of_op hoperation] at hmark
      rw [checkOpLink, hoperation, Outcome.ok_bind, if_pos hplace, if_neg hmark]
      rfl
    rw [checkBlockLinks, hblock, Outcome.ok_bind, hopLinks, ← hparent,
      if_pos ((hc.blocks.owner_iff b r).2 hb)]
    rfl
  rw [checkRegionLinks, hregion, Outcome.ok_bind, hlinks, ← howner,
    if_pos ((hc.regions.owner_iff r o).2 hr)]
  rfl

/-! ## Shapes -/

theorem Coherent.regionFlaws_eq_nil (h : ctx.Coherent) {o : OpRef} {expected : List BlockCount} :
    ctx.regionFlaws expected (ctx.regionsOf o) = .ok [] ↔
      List.Forall₂ (fun r count => count.admits (ctx.blocksOf r).length) (ctx.regionsOf o)
        expected := by
  rw [regionFlaws, List.forall₂_iff_zip]
  by_cases hlength : (ctx.regionsOf o).length = expected.length
  · rw [if_neg (not_not.2 hlength), and_iff_right hlength, Outcome.filterMapM_eq_nil]
    have hflaw (r : RegionRef) (count : BlockCount) (n : Nat)
        (hm : (r, count) ∈ (ctx.regionsOf o).zip expected) :
        (do
          let found := (← ctx.region r).blocks.length
          return if count.admits found then none else some (.blocks n count found)) =
            (.ok none : Except Fault (Option ShapeFlaw)) ↔
          count.admits (ctx.blocksOf r).length := by
      obtain ⟨region, hregion⟩ := hasRegion_iff.1 (h.hasRegion_of_mem (List.of_mem_zip hm).1)
      rw [hregion, blocksOf, readRegion_of_region hregion]
      simp
    constructor
    · intro hall r count hm
      obtain ⟨n, hn⟩ := List.mem_iff_getElem?.1 hm
      exact (hflaw r count n hm).1
        (hall ((r, count), n) (List.mem_zipIdx_iff_getElem?.2 hn))
    · rintro hall ⟨⟨r, count⟩, n⟩ hmem
      have hm := List.mem_of_getElem? (List.mem_zipIdx_iff_getElem?.1 hmem)
      exact (hflaw r count n hm).2 (hall hm)
  · rw [if_pos hlength]
    exact iff_of_false (by simp) fun hfit => hlength hfit.1

theorem Coherent.flaws_eq_nil (h : ctx.Coherent) {shape : Shape} {o : OpRef}
    (ho : ctx.HasOp o) : ctx.flaws shape o = .ok [] ↔ ctx.Fits shape o := by
  obtain ⟨row, hrow⟩ := hasOp_iff.1 ho
  have hoperands : ctx.operandsOf o = row.operands := readOp_of_op hrow _ _
  have hregions : ctx.regionsOf o = row.regions := readOp_of_op hrow _ _
  have hattributes : ctx.attributesOf o = row.attributes := readOp_of_op hrow _ _
  have hresults : ctx.results o = row.results := by rw [results_eq_readOp, readOp_of_op hrow]
  have hfits : ctx.Fits shape o ↔ shape.operands.admits (ctx.operandsOf o).length ∧
      (∀ n, shape.results = some n → (ctx.results o).length = n) ∧
      ctx.regionFlaws shape.regions (ctx.regionsOf o) = .ok [] ∧
      attributeFlaws shape.attributes (ctx.attributesOf o) = [] := by
    rw [h.regionFlaws_eq_nil]
    exact ⟨fun hf => ⟨hf.1, hf.2, hf.3, hf.4⟩, fun ⟨h₁, h₂, h₃, h₄⟩ => ⟨h₁, h₂, h₃, h₄⟩⟩
  rw [hfits, flaws, hrow, Outcome.ok_bind, ← hoperands, ← hregions, ← hattributes, ← hresults]
  simp only [Outcome.bind_eq_ok, Outcome.pure_eq_ok, List.append_eq_nil_iff]
  constructor
  · rintro ⟨_, hrun, ⟨⟨h₁, h₂⟩, rfl⟩, h₄⟩
    refine ⟨by simpa using h₁, fun n hn => ?_, hrun, h₄⟩
    simpa [hn] using h₂
  · rintro ⟨h₁, h₂, h₃, h₄⟩
    refine ⟨[], h₃, ⟨⟨if_pos h₁, ?_⟩, rfl⟩, h₄⟩
    cases hn : shape.results with
    | none => rfl
    | some n => exact if_pos (h₂ n hn)

theorem Coherent.noInductionVariable?_eq_nil (h : ctx.Coherent) {o : OpRef} (ho : ctx.HasOp o) :
    ctx.noInductionVariable? o = .ok [] ↔ ∀ r, (ctx.regionsOf o).head? = some r →
      ∀ b, (ctx.blocksOf r).head? = some b → ctx.args b ≠ [] := by
  obtain ⟨row, hrow⟩ := hasOp_iff.1 ho
  have hregions : ctx.regionsOf o = row.regions := readOp_of_op hrow _ _
  rw [noInductionVariable?, hrow, Outcome.ok_bind, ← hregions]
  cases hr : (ctx.regionsOf o).head? with
  | none => simp
  | some r =>
    obtain ⟨region, hregion⟩ := hasRegion_iff.1 (h.hasRegion_of_mem (List.mem_of_head? hr))
    have hblocks : ctx.blocksOf r = region.blocks := readRegion_of_region hregion _ _
    simp only [ entry?, hregion, Outcome.ok_bind, ← hblocks, Option.some.injEq, forall_eq']
    cases hb : (ctx.blocksOf r).head? with
    | none => simp [pure, Except.pure]
    | some b => simp [pure, Except.pure, Outcome.ok_bind]

theorem Coherent.checkShapeOf_eq_nil (h : ctx.Coherent) {o : OpRef} (ho : ctx.HasOp o) :
    ctx.checkShapeOf o = .ok [] ↔ ctx.Shaped o := by
  let flaws : Except Fault (List ShapeFlaw) :=
    (ctx.kindOf o).shape?.elim (pure []) (ctx.flaws · o)
  let loops : Except Fault (List Finding) :=
    if ctx.kindOf o = .loop then ctx.noInductionVariable? o else pure []
  have hflaws : flaws = .ok [] ↔
      ∀ shape, (ctx.kindOf o).shape? = some shape → ctx.Fits shape o := by
    dsimp only [flaws]
    cases (ctx.kindOf o).shape? with
    | none => simp
    | some shape => simpa using h.flaws_eq_nil ho
  have hloops : loops = .ok [] ↔ (ctx.kindOf o = .loop →
      ∀ r, (ctx.regionsOf o).head? = some r →
        ∀ b, (ctx.blocksOf r).head? = some b → ctx.args b ≠ []) := by
    rw [← h.noInductionVariable?_eq_nil ho]
    dsimp only [loops]
    split <;> simp [*]
  have hcheck : ctx.checkShapeOf o =
      (do return (← flaws).map (.shape (ctx.kindOf o) o) ++ (← loops)) := by
    dsimp only [checkShapeOf, flaws, loops]
    rw [kind_ok ho, Outcome.ok_bind]
    cases (ctx.kindOf o).shape? <;> by_cases hl : ctx.kindOf o = .loop <;> simp only [hl] <;> rfl
  rw [hcheck]
  simp only [Outcome.bind_eq_ok, Outcome.pure_eq_ok, List.append_eq_nil_iff, List.map_eq_nil_iff]
  constructor
  · rintro ⟨_, h₁, _, h₂, rfl, rfl⟩
    exact ⟨hflaws.1 h₁, hloops.1 h₂⟩
  · rintro ⟨h₁, h₂⟩
    exact ⟨[], hflaws.2 h₁, [], hloops.2 h₂, rfl, rfl⟩

/-! ## All checks -/

/-- Nothing is found in a program iff it is valid. -/
theorem Sound.findings_isEmpty_iff (h : ctx.Sound) {root : OpRef} (hroot : ctx.HasOp root)
    (hlive : ∀ o, ctx.Within o root → ¬ctx.isErased o) :
    (∃ f, ctx.findings root = .ok f ∧ f.isEmpty) ↔ ctx.Valid root := by
  have hterminators : ctx.checkTerminators root = .ok [] ↔
      ∀ o, ctx.Within o root → ctx.Terminated o :=
    (h.flatMapM_subtree_eq_nil hroot).trans (forall₂_congr fun o hw =>
      h.coherent.checkTerminatorsOf_eq_nil (h.coherent.hasOp_of_within' hw hroot))
  have hshapes : ctx.checkShapes root = .ok [] ↔ ∀ o, ctx.Within o root → ctx.Shaped o :=
    (h.flatMapM_subtree_eq_nil hroot).trans (forall₂_congr fun o hw =>
      h.coherent.checkShapeOf_eq_nil (h.coherent.hasOp_of_within' hw hroot))
  have hvalid : ctx.Valid root ↔ ctx.checkTerminators root = .ok [] ∧
      ctx.checkScoping root = .ok [] ∧ ctx.checkShapes root = .ok [] := by
    rw [hterminators, h.checkScoping_eq_nil hroot, hshapes]
    exact ⟨fun hv => ⟨hv.1, hv.2, hv.3⟩, fun ⟨h₁, h₂, h₃⟩ => ⟨h₁, h₂, h₃⟩⟩
  rw [hvalid, findings, h.checkUseChains_eq_nil hroot hlive, h.checkLinks_eq_nil hroot hlive]
  simp only [Outcome.ok_bind, Outcome.bind_eq_ok, Outcome.pure_eq_ok]
  constructor
  · rintro ⟨_, ⟨terminators, h₁, scoping, h₂, shapes, h₃, rfl⟩, hempty⟩
    simp only [Findings.isEmpty, List.isEmpty_nil, Bool.true_and, Bool.and_true, Bool.and_eq_true,
      List.isEmpty_iff] at hempty
    obtain ⟨⟨rfl, rfl⟩, rfl⟩ := hempty
    exact ⟨h₁, h₂, h₃⟩
  · rintro ⟨h₁, h₂, h₃⟩
    exact ⟨_, ⟨[], h₁, [], h₂, [], h₃, rfl⟩, rfl⟩

/-- If nothing is found, the blocks of all operations end as they must, and all have their shapes.
    This needs the tables of the context to agree, but not that there are no cycles. -/
theorem Coherent.of_findings (h : ctx.Coherent) {root : OpRef} {f : Findings}
    (hrun : ctx.findings root = .ok f) (hempty : f.isEmpty) : ctx.HasOp root ∧
      ∀ o, ctx.Within o root → ctx.Terminated o ∧ ctx.Shaped o := by
  simp only [findings, Outcome.bind_eq_ok, Outcome.pure_eq_ok] at hrun
  obtain ⟨useChains, -, terminators, hterminators, links, -, scoping, -, shapes, hshapes, rfl⟩ :=
    hrun
  simp only [Findings.isEmpty, Bool.and_eq_true, List.isEmpty_iff] at hempty
  obtain ⟨⟨⟨⟨-, rfl⟩, -⟩, -⟩, rfl⟩ := hempty
  obtain ⟨tree, htree, hterminators⟩ := Outcome.bind_eq_ok.1 hterminators
  obtain ⟨tree', htree', hshapes⟩ := Outcome.bind_eq_ok.1 hshapes
  obtain rfl := Except.ok.inj (htree.symm.trans htree')
  obtain ⟨hroot, -⟩ := subtreeWithin_succ_eq_ok htree
  refine ⟨hroot, fun o ho => ?_⟩
  have hmem := (h.mem_subtree_iff htree).2 ho
  have hop := h.hasOp_of_within' ho hroot
  exact ⟨(h.checkTerminatorsOf_eq_nil hop).1 (Outcome.flatMapM_eq_nil.1 hterminators o hmem),
    (h.checkShapeOf_eq_nil hop).1 (Outcome.flatMapM_eq_nil.1 hshapes o hmem)⟩

end Offload.Context
