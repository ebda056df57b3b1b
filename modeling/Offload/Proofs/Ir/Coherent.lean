import Mathlib.Data.List.Perm.Basic
import Mathlib.Data.List.Nodup
import Offload.Proofs.Ir.Rows

/-!
# Coherence

The tables of a context tell everything twice: an owner lists what it owns, and
what is owned records its owner; a use chain lists the operand slots that hold a
value, and the operation of a slot has the value among its operands; an
operation or a block lists the values that it defines, and a value records where
it comes from. A context is *coherent* if the two always agree (`Coherent`).

Ownership is the same on its three levels — operations in blocks, blocks in
regions, regions in operations — so what it means for it to agree is stated once
(`Linked`), with the one way in which it grows (`Linked.add`) and the one way in
which it shrinks (`Linked.remove`).

Allocation keeps a context coherent (`Coherent.addOp`, `Coherent.addBlock`,
`Coherent.addRegion`), if what the new row owns is free and named once.
-/

namespace Offload

/-! ## Ownership -/

/-- Children and their owners agree: a child records the owner that lists it, and
    an owner lists a child once. -/
structure Linked {χ π : Type} (owner : χ → Option π) (listed : π → List χ) : Prop where
  owner_iff : ∀ c p, owner c = some p ↔ c ∈ listed p
  nodup : ∀ p, (listed p).Nodup

namespace Linked

variable {χ π : Type} {owner owner' : χ → Option π} {listed listed' : π → List χ}

theorem not_mem_of_free (h : Linked owner listed) {c : χ} (hc : owner c = none) (p : π) :
    c ∉ listed p := fun hm => by
  rw [(h.owner_iff c p).2 hm] at hc
  cases hc

theorem congr (h : Linked owner listed) (howner : ∀ c, owner' c = owner c)
    (hlisted : ∀ p, listed' p = listed p) : Linked owner' listed' := by
  rwa [funext howner, funext hlisted]

/-- A child is listed by one owner only. -/
theorem owner_unique (h : Linked owner listed) {c : χ} {p q : π} (hp : c ∈ listed p)
    (hq : c ∈ listed q) : p = q :=
  Option.some.inj (((h.owner_iff c p).2 hp).symm.trans ((h.owner_iff c q).2 hq))

/-- Free children, each named once, are given to an owner. -/
theorem add [DecidableEq χ] [DecidableEq π] (h : Linked owner listed) (p : π) (cs l : List χ)
    (hfree : ∀ c ∈ cs, owner c = none) (hcs : cs.Nodup) (hl : l.Perm (cs ++ listed p))
    (howner : ∀ c, owner' c = if c ∈ cs then some p else owner c)
    (hlisted : ∀ q, listed' q = if q = p then l else listed q) : Linked owner' listed' where
  owner_iff c q := by
    rw [howner, hlisted]
    by_cases hq : q = p
    · subst hq
      rw [if_pos rfl, hl.mem_iff, List.mem_append, ← h.owner_iff]
      split <;> simp [*]
    · rw [if_neg hq]
      split
      · rename_i hc
        have hne : p ≠ q := fun e => hq e.symm
        simp [hne, h.not_mem_of_free (hfree c hc) q]
      · exact h.owner_iff c q
  nodup q := by
    rw [hlisted]
    split
    · rw [hl.nodup_iff, List.nodup_append]
      refine ⟨hcs, h.nodup p, fun a ha b hb => ?_⟩
      rintro rfl
      exact h.not_mem_of_free (hfree a ha) p hb
    · exact h.nodup q

/-- A child is taken from its owner. -/
theorem remove [DecidableEq χ] [DecidableEq π] (h : Linked owner listed) {c : χ} {p : π}
    (hc : owner c = some p) (howner : ∀ d, owner' d = if d = c then none else owner d)
    (hlisted : ∀ q, listed' q = if q = p then (listed p).filter (· ≠ c) else listed q) :
    Linked owner' listed' where
  owner_iff d q := by
    rw [howner, hlisted]
    by_cases hd : d = c
    · subst hd
      by_cases hq : q = p
      · simp [hq]
      · have hne : d ∉ listed q := fun hm => hq (h.owner_unique hm ((h.owner_iff d p).1 hc))
        simp [hq, hne]
    · by_cases hq : q = p
      · subst hq
        simp [hd, h.owner_iff]
      · simp [hd, hq, h.owner_iff]
  nodup q := by
    rw [hlisted]
    split
    · exact (h.nodup p).filter _
    · exact h.nodup q

end Linked

namespace Context

/-! ## Use chains -/

/-- The use chains agree with the operands: a slot is in the chain of the value
    that an operation holds in it, once, and in no other. -/
structure UsesExact (ctx : Context) : Prop where
  mem_iff : ∀ v u, u ∈ ctx.uses.get v ↔ (ctx.heldBy u.user)[u.slot]? = some v
  nodup : ∀ v, (ctx.uses.get v).Nodup

theorem UseTable.get_push (t : UseTable) (v w : ValueRef) (u : Use) :
    (t.push v u).get w = if v = w then t.get w ++ [u] else t.get w := by
  rw [UseTable.push, UseTable.get_set]
  split <;> simp [*]

/-- The uses of operands are added at the ends of the chains, in the order of the
    slots. -/
theorem get_addUses (uses : UseTable) (user : OpRef) (slot : Nat) (vs : List ValueRef)
    (w : ValueRef) :
    (addUses uses user slot vs).get w =
      uses.get w ++ ((vs.zipIdx slot).filter (·.1 = w)).map fun p => ⟨user, p.2⟩ := by
  induction vs generalizing uses slot with
  | nil => simp [addUses]
  | cons v vs ih =>
    rw [addUses, ih, UseTable.get_push, List.zipIdx_cons, List.filter_cons]
    by_cases h : v = w <;> simp [h]

/-- The uses of operands are dropped from the chains. -/
theorem get_dropUses (uses : UseTable) (user : OpRef) (slot : Nat) (vs : List ValueRef)
    (w : ValueRef) :
    (dropUses uses user slot vs).get w =
      (uses.get w).filter fun u => ¬(u.user = user ∧ (w, u.slot) ∈ vs.zipIdx slot) := by
  induction vs generalizing uses slot with
  | nil => simp [dropUses]
  | cons v vs ih =>
    rw [dropUses, ih, UseTable.get_set]
    by_cases h : v = w
    · rw [if_pos h, h, List.filter_filter]
      refine List.filter_congr fun u _ => ?_
      rw [← Bool.decide_and, decide_eq_decide, List.zipIdx_cons, List.mem_cons]
      have hu : u ≠ ⟨user, slot⟩ ↔ ¬(u.user = user ∧ u.slot = slot) := by
        cases u; simp
      rw [hu, Prod.mk.injEq]
      tauto
    · rw [if_neg h]
      refine List.filter_congr fun u _ => ?_
      rw [decide_eq_decide, List.zipIdx_cons, List.mem_cons, Prod.mk.injEq]
      have : w ≠ v := fun e => h e.symm
      tauto

/-! ## Values -/

/-- Values and what defines them agree: the `n`-th result of an operation is the
    value that records to be that result, and so for arguments. There is one for
    each type. -/
structure ValuesExact (ctx : Context) : Prop where
  result_iff : ∀ o n v, (ctx.results o)[n]? = some v ↔ ctx.sourceOf v = some (.result o n)
  argument_iff : ∀ b n v, (ctx.args b)[n]? = some v ↔ ctx.sourceOf v = some (.argument b n)
  results_length : ∀ o, (ctx.results o).length = (ctx.readOp (·.resultTypes) [] o).length
  args_length : ∀ b, (ctx.args b).length = (ctx.readBlock (·.argTypes) [] b).length

/-! ## Coherence -/

/-- The tables of a context agree with each other. -/
structure Coherent (ctx : Context) : Prop where
  ops : Linked ctx.blockOf ctx.opsOf
  blocks : Linked ctx.regionOf ctx.blocksOf
  regions : Linked ctx.ownerOf ctx.regionsOf
  uses : ctx.UsesExact
  values : ctx.ValuesExact

theorem coherent_empty : empty.Coherent := by
  refine ⟨⟨?_, ?_⟩, ⟨?_, ?_⟩, ⟨?_, ?_⟩, ⟨?_, ?_⟩, ⟨?_, ?_, ?_, ?_⟩⟩ <;>
    simp [empty, readOp, readBlock, readRegion, results, args, sourceOf, UseTable.get,
      UseTable.empty]

namespace Coherent

variable {ctx : Context}

/-- What is listed exists. -/
theorem hasOp_of_mem (h : ctx.Coherent) {o : OpRef} {b : BlockRef} (ho : o ∈ ctx.opsOf b) :
    ctx.HasOp o := by
  by_contra hn
  have hb : ctx.blockOf o = some b := (h.ops.owner_iff o b).2 ho
  rw [blockOf, readOp_of_not_hasOp hn] at hb
  cases hb

theorem hasBlock_of_mem (h : ctx.Coherent) {b : BlockRef} {r : RegionRef}
    (hb : b ∈ ctx.blocksOf r) : ctx.HasBlock b := by
  by_contra hn
  have hr : ctx.regionOf b = some r := (h.blocks.owner_iff b r).2 hb
  rw [regionOf, readBlock_of_not_hasBlock hn] at hr
  cases hr

theorem hasRegion_of_mem (h : ctx.Coherent) {r : RegionRef} {o : OpRef}
    (hr : r ∈ ctx.regionsOf o) : ctx.HasRegion r := by
  by_contra hn
  have ho : ctx.ownerOf r = some o := (h.regions.owner_iff r o).2 hr
  rw [ownerOf, readRegion_of_not_hasRegion hn] at ho
  cases ho

/-- What is recorded as an owner exists. -/
theorem hasBlock_of_blockOf (h : ctx.Coherent) {o : OpRef} {b : BlockRef}
    (ho : ctx.blockOf o = some b) : ctx.HasBlock b := by
  by_contra hn
  have hm : o ∈ ctx.opsOf b := (h.ops.owner_iff o b).1 ho
  rw [opsOf, readBlock_of_not_hasBlock hn] at hm
  cases hm

theorem hasRegion_of_regionOf (h : ctx.Coherent) {b : BlockRef} {r : RegionRef}
    (hb : ctx.regionOf b = some r) : ctx.HasRegion r := by
  by_contra hn
  have hm : b ∈ ctx.blocksOf r := (h.blocks.owner_iff b r).1 hb
  rw [blocksOf, readRegion_of_not_hasRegion hn] at hm
  cases hm

theorem hasOp_of_ownerOf (h : ctx.Coherent) {r : RegionRef} {o : OpRef}
    (hr : ctx.ownerOf r = some o) : ctx.HasOp o := by
  by_contra hn
  have hm : r ∈ ctx.regionsOf o := (h.regions.owner_iff r o).1 hr
  rw [regionsOf, readOp_of_not_hasOp hn] at hm
  cases hm

/-- Only operations that exist use anything. -/
theorem hasOp_of_use (h : ctx.Coherent) {v : ValueRef} {u : Use} (hu : u ∈ ctx.uses.get v) :
    ctx.HasOp u.user := by
  by_contra hn
  rw [h.uses.mem_iff, heldBy, readOp_of_not_hasOp hn] at hu
  cases hu

end Coherent

/-! ## Allocation -/

section Allocation

variable {ctx : Context} {blueprint : Blueprint} {location : Location} {argTypes : List TypeRef}
  {ops : List OpRef} {blocks : List BlockRef}

theorem not_hasOp_size : ¬ctx.HasOp ⟨ctx.ops.size⟩ := Nat.lt_irrefl _

theorem not_hasBlock_size : ¬ctx.HasBlock ⟨ctx.blocks.size⟩ := Nat.lt_irrefl _

theorem not_hasRegion_size : ¬ctx.HasRegion ⟨ctx.regions.size⟩ := Nat.lt_irrefl _

/-- A new operation uses its operands, each slot once. -/
theorem UsesExact.addOp (h : ctx.UsesExact) : (ctx.addOp blueprint).1.UsesExact where
  mem_iff v u := by
    rw [uses_addOp, get_addUses, heldBy, readOp_addOp, List.mem_append]
    by_cases hu : u.user = ⟨ctx.ops.size⟩
    · obtain ⟨_, k⟩ := u
      subst hu
      rw [if_pos rfl, h.mem_iff, heldBy, readOp_of_not_hasOp not_hasOp_size]
      simp only [List.getElem?_nil, reduceCtorEq, false_or, List.mem_map, List.mem_filter,
        decide_eq_true_eq, Use.mk.injEq, true_and, Prod.exists, List.mem_zipIdx_iff_getElem?,
        freshRow, Bool.false_eq_true, if_false]
      constructor
      · rintro ⟨w, k', ⟨hk, rfl⟩, rfl⟩
        exact hk
      · exact fun hk => ⟨v, k, ⟨hk, rfl⟩, rfl⟩
    · rw [if_neg hu, ← heldBy, ← h.mem_iff, or_iff_left]
      intro hm
      obtain ⟨p, -, rfl⟩ := List.mem_map.1 hm
      exact hu rfl
  nodup v := by
    rw [uses_addOp, get_addUses, List.nodup_append]
    refine ⟨h.nodup v, ?_, ?_⟩
    · have hslots : (blueprint.operands.zipIdx.map Prod.snd).Nodup := by
        rw [List.zipIdx_map_snd]
        exact List.nodup_range'
      refine (List.Nodup.filter _ hslots.of_map).map_on ?_
      rintro ⟨w, k⟩ hw ⟨w', k'⟩ hw' e
      simp only [List.mem_filter, decide_eq_true_eq, Use.mk.injEq, true_and] at hw hw' e
      rw [hw.2, hw'.2, e]
    · -- a use that was there before is by another operation
      rintro u hu _ hm rfl
      obtain ⟨p, -, rfl⟩ := List.mem_map.1 hm
      rw [h.mem_iff, heldBy, readOp_of_not_hasOp not_hasOp_size] at hu
      cases hu

/-- The values of a new operation are its results, in their order. -/
theorem result_iff_addOp
    (h : ∀ o n v, (ctx.results o)[n]? = some v ↔ ctx.sourceOf v = some (.result o n))
    (o : OpRef) (n : Nat) (v : ValueRef) : ((ctx.addOp blueprint).1.results o)[n]? = some v ↔
      (ctx.addOp blueprint).1.sourceOf v = some (.result o n) := by
  rw [results_eq_readOp, readOp_addOp, ← results_eq_readOp, sourceOf_addOp, ← h]
  by_cases ho : o = ⟨ctx.ops.size⟩
  · subst ho
    have hnone : ctx.results ⟨ctx.ops.size⟩ = [] := by
      rw [results_eq_readOp, readOp_of_not_hasOp not_hasOp_size]
    simp [freshRow, getElem?_nextValues, hnone, and_comm]
  · simp [ho]

/-- The values of a new block are its arguments, in their order. -/
theorem argument_iff_addBlock
    (h : ∀ b n v, (ctx.args b)[n]? = some v ↔ ctx.sourceOf v = some (.argument b n))
    (b : BlockRef) (n : Nat) (v : ValueRef) :
    ((ctx.addBlock location argTypes ops).1.args b)[n]? = some v ↔
      (ctx.addBlock location argTypes ops).1.sourceOf v = some (.argument b n) := by
  rw [args_eq_readBlock, readBlock_addBlock, ← args_eq_readBlock, sourceOf_addBlock, ← h]
  by_cases hb : b = ⟨ctx.blocks.size⟩
  · subst hb
    have hnone : ctx.args ⟨ctx.blocks.size⟩ = [] := by
      rw [args_eq_readBlock, readBlock_of_not_hasBlock not_hasBlock_size]
    simp [getElem?_nextValues, hnone, and_comm]
  · simp [hb]

theorem ValuesExact.addOp (h : ctx.ValuesExact) : (ctx.addOp blueprint).1.ValuesExact where
  result_iff := result_iff_addOp h.result_iff
  argument_iff b n v := by
    rw [args_eq_readBlock, readBlock_addOp, ← args_eq_readBlock, sourceOf_addOp,
      ← h.argument_iff]
    simp
  results_length o := by
    rw [results_eq_readOp, readOp_addOp, readOp_addOp, ← results_eq_readOp]
    split
    · simp [freshRow, nextValues]
    · exact h.results_length o
  args_length b := by
    rw [args_eq_readBlock, readBlock_addOp, readBlock_addOp, ← args_eq_readBlock, h.args_length]

theorem ValuesExact.addBlock (h : ctx.ValuesExact) :
    (ctx.addBlock location argTypes ops).1.ValuesExact where
  result_iff o n v := by
    rw [results_eq_readOp, readOp_addBlock, sourceOf_addBlock, ← h.result_iff, results_eq_readOp]
    simp
  argument_iff := argument_iff_addBlock h.argument_iff
  results_length o := by
    rw [results_eq_readOp, readOp_addBlock, readOp_addBlock, ite_self, ite_self,
      ← results_eq_readOp, h.results_length]
  args_length b := by
    rw [args_eq_readBlock, readBlock_addBlock, readBlock_addBlock, ← args_eq_readBlock]
    split
    · simp [nextValues]
    · exact h.args_length b

/-- A new region has no values. -/
theorem ValuesExact.addRegion (h : ctx.ValuesExact) :
    (ctx.addRegion location blocks).1.ValuesExact where
  result_iff o n v := by
    rw [results_eq_readOp, readOp_addRegion, sourceOf_addRegion, ← h.result_iff,
      results_eq_readOp]
  argument_iff b n v := by
    rw [args_eq_readBlock, readBlock_addRegion, ite_self, sourceOf_addRegion, ← h.argument_iff,
      args_eq_readBlock]
  results_length o := by
    rw [results_eq_readOp, readOp_addRegion, readOp_addRegion, ← results_eq_readOp,
      h.results_length]
  args_length b := by
    rw [args_eq_readBlock, readBlock_addRegion, readBlock_addRegion, ite_self, ite_self,
      ← args_eq_readBlock, h.args_length]

/-- A new operation is given free regions, each named once. -/
theorem Coherent.addOp (h : ctx.Coherent) (hex : ∀ r ∈ blueprint.regions, ctx.HasRegion r)
    (hfree : ∀ r ∈ blueprint.regions, ctx.ownerOf r = none) (hnodup : blueprint.regions.Nodup) :
    (ctx.addOp blueprint).1.Coherent where
  ops := h.ops.congr
    (fun o => by
      rw [blockOf, readOp_addOp]
      split
      · rename_i ho
        rw [ho, blockOf, readOp_of_not_hasOp not_hasOp_size, freshRow]
      · rfl)
    (fun b => readBlock_addOp _ _ b)
  blocks := h.blocks.congr (fun b => readBlock_addOp _ _ b) fun r => by
    rw [blocksOf, readRegion_addOp, ite_self]
  regions := by
    refine h.regions.add ⟨ctx.ops.size⟩ blueprint.regions blueprint.regions hfree hnodup ?_
      (fun r => ?_) fun o => ?_
    · rw [regionsOf, readOp_of_not_hasOp not_hasOp_size, List.append_nil]
    · rw [ownerOf, readRegion_addOp]
      split
      · rename_i hr
        obtain ⟨row, hrow⟩ := hasRegion_iff.1 (hex r hr)
        rw [readRegion_of_region hrow]
      · rfl
    · rw [regionsOf, readOp_addOp, freshRow]
  uses := h.uses.addOp
  values := h.values.addOp

/-- A new block is given detached operations, each named once. -/
theorem Coherent.addBlock (h : ctx.Coherent) (hex : ∀ o ∈ ops, ctx.HasOp o)
    (hfree : ∀ o ∈ ops, ctx.blockOf o = none) (hnodup : ops.Nodup) :
    (ctx.addBlock location argTypes ops).1.Coherent where
  ops := by
    refine h.ops.add ⟨ctx.blocks.size⟩ ops ops hfree hnodup ?_ (fun o => ?_) fun b => ?_
    · rw [opsOf, readBlock_of_not_hasBlock not_hasBlock_size, List.append_nil]
    · rw [blockOf, readOp_addBlock]
      split
      · rename_i ho
        obtain ⟨row, hrow⟩ := hasOp_iff.1 (hex o ho)
        rw [readOp_of_op hrow]
      · rfl
    · rw [opsOf, readBlock_addBlock]
  blocks := h.blocks.congr
    (fun b => by
      rw [regionOf, readBlock_addBlock]
      split
      · rename_i hb
        rw [hb, regionOf, readBlock_of_not_hasBlock not_hasBlock_size]
      · rfl)
    (fun r => readRegion_addBlock _ _ r)
  regions := h.regions.congr (fun r => readRegion_addBlock _ _ r) fun o => by
    rw [regionsOf, readOp_addBlock, ite_self]
  uses := ⟨fun v u => by rw [uses_addBlock, heldBy, readOp_addBlock, ite_self, h.uses.mem_iff],
    fun v => by rw [uses_addBlock]; exact h.uses.nodup v⟩
  values := h.values.addBlock

/-- A new region is given detached blocks, each named once. -/
theorem Coherent.addRegion (h : ctx.Coherent) (hex : ∀ b ∈ blocks, ctx.HasBlock b)
    (hfree : ∀ b ∈ blocks, ctx.regionOf b = none) (hnodup : blocks.Nodup) :
    (ctx.addRegion location blocks).1.Coherent where
  ops := h.ops.congr (fun o => readOp_addRegion _ _ o) fun b => by
    rw [opsOf, readBlock_addRegion, ite_self]
  blocks := by
    refine h.blocks.add ⟨ctx.regions.size⟩ blocks blocks hfree hnodup ?_
      (fun b => ?_) fun r => ?_
    · rw [blocksOf, readRegion_of_not_hasRegion not_hasRegion_size, List.append_nil]
    · rw [regionOf, readBlock_addRegion]
      split
      · rename_i hb
        obtain ⟨row, hrow⟩ := hasBlock_iff.1 (hex b hb)
        rw [readBlock_of_block hrow]
      · rfl
    · rw [blocksOf, readRegion_addRegion]
  regions := h.regions.congr
    (fun r => by
      rw [ownerOf, readRegion_addRegion]
      split
      · rename_i hr
        rw [hr, ownerOf, readRegion_of_not_hasRegion not_hasRegion_size]
      · rfl)
    (fun o => readOp_addRegion _ _ o)
  uses := ⟨fun v u => by rw [uses_addRegion, heldBy, readOp_addRegion, h.uses.mem_iff],
    fun v => by rw [uses_addRegion]; exact h.uses.nodup v⟩
  values := h.values.addRegion

end Allocation

end Context

end Offload
