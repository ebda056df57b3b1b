import Mathlib.Data.List.Basic
import Offload.Ir.Edit
import Offload.Proofs.Ir.Frame
import Offload.Proofs.Position

/-!
# Placing operations

Attaching, detaching and moving an operation change two things only: the block
that the operation records, and the list of a block. All of them are instances
of one change (`relist`), and leave everything else as it is (`Relisted`), so
that only the ownership of operations needs to be looked at again
(`Relisted.coherent`).

The specifications say when each of them succeeds, and which instance it is
then: `pushOp_eq_ok`, `insertOpAt_eq_ok`, `insertOpBefore_eq_ok`,
`removeOpFromBlock_eq_ok`, `detachOp_eq_ok` and `moveOpBefore_eq_ok`.
-/

namespace Offload

namespace Context

/-- Contexts that differ in nothing but which operations are where. -/
structure Relisted (ctx ctx' : Context) : Prop where
  inPlace : ctx.InPlace ctx'
  operands : ctx'.operandsOf = ctx.operandsOf
  erased : ctx'.isErased = ctx.isErased
  uses : ctx'.uses = ctx.uses

namespace Relisted

variable {ctx ctx₁ ctx₂ : Context}

theorem refl (ctx : Context) : ctx.Relisted ctx := ⟨.refl ctx, rfl, rfl, rfl⟩

theorem trans (h₁ : ctx.Relisted ctx₁) (h₂ : ctx₁.Relisted ctx₂) : ctx.Relisted ctx₂ :=
  ⟨h₁.inPlace.trans h₂.inPlace, h₂.operands.trans h₁.operands, h₂.erased.trans h₁.erased,
    h₂.uses.trans h₁.uses⟩

/-- A context stays coherent if the ownership of operations does. -/
theorem coherent (h : ctx.Relisted ctx₁) (hc : ctx.Coherent)
    (hops : Linked ctx₁.blockOf ctx₁.opsOf) : ctx₁.Coherent :=
  h.inPlace.coherent hc hops
    ⟨fun v u => by rw [h.uses, heldBy_eq, h.operands, h.erased, ← heldBy_eq, hc.uses.mem_iff],
      fun v => by rw [h.uses]; exact hc.uses.nodup v⟩

end Relisted

/-! ## The change -/

/-- Let an operation record an owner, and change the list of a block. -/
def relist (ctx : Context) (o : OpRef) (owner : Option BlockRef) (b : BlockRef)
    (g : List OpRef → List OpRef) : Context :=
  (ctx.modifyOp o fun row => { row with parent := owner }).modifyBlock b
    fun row => { row with ops := g row.ops }

section Relist

variable {ctx : Context} {o : OpRef} {owner : Option BlockRef} {b : BlockRef}
  {g : List OpRef → List OpRef}

theorem relisted_relist : ctx.Relisted (ctx.relist o owner b g) where
  inPlace := by
    refine ⟨?_, ?_, rfl, rfl, rfl, rfl⟩
    · simp only [relist, modifyBlock, modifyOp]
      exact map_modify _ _ _ _ fun _ => rfl
    · simp only [relist, modifyBlock, modifyOp]
      exact map_modify _ _ _ _ fun _ => rfl
  operands := by
    funext p
    rw [operandsOf, relist, readOp_modifyBlock, readOp_modifyOp]
    exact ite_self _
  erased := by
    funext p
    rw [isErased_eq_readOp, relist, readOp_modifyBlock, readOp_modifyOp, isErased_eq_readOp]
    exact ite_self _
  uses := rfl

theorem blockOf_relist (ho : ctx.HasOp o) (p : OpRef) :
    (ctx.relist o owner b g).blockOf p = if p = o then owner else ctx.blockOf p := by
  rw [blockOf, relist, readOp_modifyBlock, readOp_modifyOp]
  split
  · rename_i hp
    obtain ⟨row, hrow⟩ := hasOp_iff.1 ho
    rw [hp, readOp_of_op hrow, Function.comp]
  · rfl

theorem opsOf_relist (hb : ctx.HasBlock b) (c : BlockRef) :
    (ctx.relist o owner b g).opsOf c = if c = b then g (ctx.opsOf c) else ctx.opsOf c := by
  rw [opsOf, relist, readBlock_modifyBlock]
  split
  · rename_i hc
    obtain ⟨row, hrow⟩ := hasBlock_iff.1 hb
    rw [hc, readBlock_modifyOp, opsOf, readBlock_of_block hrow, readBlock_of_block hrow, Function.comp]
  · rfl

end Relist

/-! ## Taking and putting -/

/-- The context with an operation taken from the block that it is in, if any. -/
def detached (ctx : Context) (o : OpRef) : Context :=
  match ctx.blockOf o with
  | some b => ctx.relist o none b (·.filter (· ≠ o))
  | none => ctx

section Detached

variable {ctx : Context} {o : OpRef}

theorem detached_of_free (h : ctx.blockOf o = none) : ctx.detached o = ctx := by
  rw [detached, h]

theorem detached_of_blockOf {b : BlockRef} (h : ctx.blockOf o = some b) :
    ctx.detached o = ctx.relist o none b (·.filter (· ≠ o)) := by
  rw [detached, h]

theorem relisted_detached : ctx.Relisted (ctx.detached o) := by
  cases hb : ctx.blockOf o with
  | none =>
    rw [detached_of_free hb]
    exact Relisted.refl ctx
  | some b =>
    rw [detached_of_blockOf hb]
    exact relisted_relist

theorem Coherent.blockOf_detached (h : ctx.Coherent) (p : OpRef) :
    (ctx.detached o).blockOf p = if p = o then none else ctx.blockOf p := by
  cases hb : ctx.blockOf o with
  | none =>
    rw [detached_of_free hb]
    split
    · rename_i hp
      rw [hp, hb]
    · rfl
  | some b =>
    rw [detached_of_blockOf hb]
    exact blockOf_relist (h.hasOp_of_mem ((h.ops.owner_iff o b).1 hb)) p

theorem Coherent.opsOf_detached (h : ctx.Coherent) (c : BlockRef) :
    (ctx.detached o).opsOf c = (ctx.opsOf c).filter (· ≠ o) := by
  have hkeep (hc : ctx.blockOf o ≠ some c) : ctx.opsOf c = (ctx.opsOf c).filter (· ≠ o) := by
    refine (List.filter_eq_self.2 fun p hp => ?_).symm
    rw [decide_eq_true_eq]
    rintro rfl
    exact hc ((h.ops.owner_iff p c).2 hp)
  cases hb : ctx.blockOf o with
  | none =>
    rw [detached_of_free hb]
    exact hkeep (by rw [hb]; simp)
  | some b =>
    rw [detached_of_blockOf hb, opsOf_relist (h.hasBlock_of_blockOf hb)]
    split
    · rfl
    · rename_i hc
      refine hkeep fun e => hc ?_
      rw [hb] at e
      exact (Option.some.inj e).symm

theorem Coherent.detached (h : ctx.Coherent) (o : OpRef) : (ctx.detached o).Coherent := by
  refine relisted_detached.coherent h ?_
  cases ho : ctx.blockOf o with
  | none => rw [detached_of_free ho]; exact h.ops
  | some b =>
    refine h.ops.remove ho h.blockOf_detached fun c => ?_
    rw [h.opsOf_detached]
    split
    · rename_i hc
      rw [hc]
    · rename_i hc
      refine List.filter_eq_self.2 fun p hp => ?_
      rw [decide_eq_true_eq]
      rintro rfl
      exact hc (h.ops.owner_unique hp ((h.ops.owner_iff p b).1 ho))

end Detached

/-- An operation was put into a block, in which the operations are `l` now. It was
    taken from where it was before. -/
structure Put (ctx : Context) (o : OpRef) (b : BlockRef) (l : List OpRef) (ctx' : Context) :
    Prop where
  relisted : ctx.Relisted ctx'
  hasOp : ctx.HasOp o
  perm : l.Perm (o :: (ctx.opsOf b).filter (· ≠ o))
  blockOf : ∀ p, ctx'.blockOf p = if p = o then some b else ctx.blockOf p
  opsOf : ∀ c, ctx'.opsOf c = if c = b then l else (ctx.opsOf c).filter (· ≠ o)

/-- A detached operation is put where it is listed. -/
theorem put_relist {ctx : Context} {o : OpRef} {b : BlockRef} {g : List OpRef → List OpRef}
    (h : ctx.Coherent) (ho : ctx.HasOp o) (hb : ctx.HasBlock b)
    (hg : (g ((ctx.opsOf b).filter (· ≠ o))).Perm (o :: (ctx.opsOf b).filter (· ≠ o))) :
    ctx.Put o b (g ((ctx.opsOf b).filter (· ≠ o)))
      ((ctx.detached o).relist o (some b) b g) where
  relisted := relisted_detached.trans relisted_relist
  hasOp := ho
  perm := hg
  blockOf p := by
    rw [blockOf_relist (relisted_detached.inPlace.hasOp.2 ho), h.blockOf_detached]
    split <;> simp [*]
  opsOf c := by
    rw [opsOf_relist (relisted_detached.inPlace.hasBlock.2 hb), h.opsOf_detached]
    split <;> simp [*]

theorem Coherent.put {ctx ctx' : Context} {o : OpRef} {b : BlockRef} {l : List OpRef}
    (h : ctx.Coherent) (hput : ctx.Put o b l ctx') : ctx'.Coherent := by
  refine hput.relisted.coherent h ((h.detached o).ops.add b [o] l ?_
    (List.nodup_singleton o) ?_ (fun p => ?_) fun c => ?_)
  · simp [h.blockOf_detached]
  · rw [h.opsOf_detached]
    exact hput.perm
  · rw [hput.blockOf, h.blockOf_detached]
    by_cases hp : p = o <;> simp [hp]
  · rw [hput.opsOf, h.opsOf_detached]

/-! ## The ways to place an operation -/

section Place

variable {ctx ctx' : Context} {o anchor : OpRef} {b : BlockRef} {position : Nat}

theorem pushOp_eq_ok : ctx.pushOp b o = .ok ctx' ↔
    ctx.HasOp o ∧ ctx.HasBlock b ∧ ctx.blockOf o = none ∧
      ctx' = ctx.relist o (some b) b (· ++ [o]) := by
  rw [pushOp]
  constructor
  · simp only [Outcome.bind_eq_ok]
    rintro ⟨row, hrow, h⟩
    split at h
    · simp at h
    · rename_i hp
      obtain ⟨block, hblock, h⟩ := Outcome.bind_eq_ok.1 h
      refine ⟨hasOp_iff.2 ⟨row, hrow⟩, hasBlock_iff.2 ⟨block, hblock⟩, ?_,
        (Outcome.pure_eq_ok.1 h).symm⟩
      rw [blockOf, readOp_of_op hrow, hp]
  · rintro ⟨ho, hb, hfree, rfl⟩
    obtain ⟨row, hrow⟩ := hasOp_iff.1 ho
    obtain ⟨block, hblock⟩ := hasBlock_iff.1 hb
    rw [blockOf, readOp_of_op hrow] at hfree
    simp only [hrow, hblock, Outcome.ok_bind, hfree]
    rfl

theorem insertOpAt_eq_ok : ctx.insertOpAt b position o = .ok ctx' ↔
    ctx.HasOp o ∧ ctx.HasBlock b ∧ ctx.blockOf o = none ∧ position ≤ (ctx.opsOf b).length ∧
      ctx' = ctx.relist o (some b) b (·.insertIdx position o) := by
  rw [insertOpAt]
  constructor
  · simp only [Outcome.bind_eq_ok]
    rintro ⟨row, hrow, h⟩
    split at h
    · simp at h
    · rename_i hp
      obtain ⟨block, hblock, h⟩ := Outcome.bind_eq_ok.1 h
      split at h
      · simp at h
      · rename_i hlen
        refine ⟨hasOp_iff.2 ⟨row, hrow⟩, hasBlock_iff.2 ⟨block, hblock⟩, ?_, ?_,
          (Outcome.pure_eq_ok.1 h).symm⟩
        · rw [blockOf, readOp_of_op hrow, hp]
        · rw [opsOf, readBlock_of_block hblock]
          exact Nat.not_lt.1 hlen
  · rintro ⟨ho, hb, hfree, hlen, rfl⟩
    obtain ⟨row, hrow⟩ := hasOp_iff.1 ho
    obtain ⟨block, hblock⟩ := hasBlock_iff.1 hb
    rw [blockOf, readOp_of_op hrow] at hfree
    rw [opsOf, readBlock_of_block hblock] at hlen
    simp only [hrow, hblock, Outcome.ok_bind, hfree, if_neg (Nat.not_lt.2 hlen)]
    rfl

/-- The operation comes right before the anchor. -/
theorem insertOpBefore_eq_ok : ctx.insertOpBefore b anchor o = .ok ctx' ↔
    ∃ position, (ctx.opsOf b).idxOf? anchor = some position ∧
      ctx.insertOpAt b position o = .ok ctx' := by
  rw [insertOpBefore]
  constructor
  · simp only [Outcome.bind_eq_ok]
    rintro ⟨block, hblock, h⟩
    split at h
    · rename_i position hp
      rw [opsOf, readBlock_of_block hblock]
      exact ⟨position, hp, h⟩
    · simp at h
  · rintro ⟨position, hp, h⟩
    obtain ⟨block, hblock⟩ := hasBlock_iff.1 (insertOpAt_eq_ok.1 h).2.1
    rw [opsOf, readBlock_of_block hblock] at hp
    simp only [hblock, Outcome.ok_bind, hp]
    exact h

theorem removeOpFromBlock_eq_ok : ctx.removeOpFromBlock b o = .ok ctx' ↔
    ctx.HasOp o ∧ ctx.HasBlock b ∧
      ctx' = if ctx.blockOf o = some b then ctx.relist o none b (·.filter (· ≠ o))
        else ctx.modifyBlock b fun row => { row with ops := row.ops.filter (· ≠ o) } := by
  rw [removeOpFromBlock]
  constructor
  · simp only [Outcome.bind_eq_ok, Outcome.pure_eq_ok]
    rintro ⟨block, hblock, row, hrow, rfl⟩
    refine ⟨hasOp_iff.2 ⟨row, hrow⟩, hasBlock_iff.2 ⟨block, hblock⟩, ?_⟩
    rw [blockOf, readOp_of_op hrow]
    rfl
  · rintro ⟨ho, hb, rfl⟩
    obtain ⟨row, hrow⟩ := hasOp_iff.1 ho
    obtain ⟨block, hblock⟩ := hasBlock_iff.1 hb
    simp only [hrow, hblock, Outcome.ok_bind, blockOf, readOp_of_op hrow]
    rfl

theorem detachOp_eq_ok (h : ctx.Coherent) :
    ctx.detachOp o = .ok ctx' ↔ ctx.HasOp o ∧ ctx' = ctx.detached o := by
  by_cases ho : ctx.HasOp o
  · obtain ⟨row, hrow⟩ := hasOp_iff.1 ho
    have hparent : ctx.blockOf o = row.parent := readOp_of_op hrow _ _
    rw [detachOp, hrow, Outcome.ok_bind, and_iff_right ho, ← hparent]
    cases hb : ctx.blockOf o with
    | none =>
      rw [detached_of_free hb]
      exact Outcome.pure_eq_ok.trans eq_comm
    | some b =>
      rw [detached_of_blockOf hb]
      refine removeOpFromBlock_eq_ok.trans ?_
      rw [if_pos hb, and_iff_right ho, and_iff_right (h.hasBlock_of_blockOf hb)]
  · refine iff_of_false (fun hrun => ?_) fun hrun => ho hrun.1
    obtain ⟨row, hrow, -⟩ := Outcome.bind_eq_ok.1 hrun
    exact ho (hasOp_iff.2 ⟨row, hrow⟩)

/-! ### What they do -/

theorem pushOp_put (h : ctx.Coherent) (hrun : ctx.pushOp b o = .ok ctx') :
    ctx.Put o b (ctx.opsOf b ++ [o]) ctx' := by
  obtain ⟨ho, hb, hfree, rfl⟩ := pushOp_eq_ok.1 hrun
  have hput := put_relist (g := (· ++ [o])) h ho hb (List.perm_append_comm)
  rwa [detached_of_free hfree, ← h.opsOf_detached, detached_of_free hfree] at hput

theorem insertOpAt_put (h : ctx.Coherent) (hrun : ctx.insertOpAt b position o = .ok ctx') :
    ctx.Put o b ((ctx.opsOf b).insertIdx position o) ctx' := by
  obtain ⟨ho, hb, hfree, hle, rfl⟩ := insertOpAt_eq_ok.1 hrun
  have hops : (ctx.opsOf b).filter (· ≠ o) = ctx.opsOf b := by
    rw [← h.opsOf_detached, detached_of_free hfree]
  have hput := put_relist (g := (·.insertIdx position o)) h ho hb
    (List.perm_insertIdx o _ (by rwa [hops]))
  rwa [detached_of_free hfree, hops] at hput

/-- An operation that is taken from its place first can be put at a position. -/
theorem detachOp_insertOpAt_put (h : ctx.Coherent) {ctx₁ : Context}
    (hdetach : ctx.detachOp o = .ok ctx₁) (hrun : ctx₁.insertOpAt b position o = .ok ctx') :
    ctx.Put o b (((ctx.opsOf b).filter (· ≠ o)).insertIdx position o) ctx' := by
  obtain ⟨ho, rfl⟩ := (detachOp_eq_ok h).1 hdetach
  obtain ⟨-, hb, -, hle, rfl⟩ := insertOpAt_eq_ok.1 hrun
  rw [h.opsOf_detached] at hle
  exact put_relist h ho (relisted_detached.inPlace.hasBlock.1 hb) (List.perm_insertIdx o _ hle)

theorem detachOp_pushOp_put (h : ctx.Coherent) {ctx₁ : Context}
    (hdetach : ctx.detachOp o = .ok ctx₁) (hrun : ctx₁.pushOp b o = .ok ctx') :
    ctx.Put o b ((ctx.opsOf b).filter (· ≠ o) ++ [o]) ctx' := by
  obtain ⟨ho, rfl⟩ := (detachOp_eq_ok h).1 hdetach
  obtain ⟨-, hb, -, rfl⟩ := pushOp_eq_ok.1 hrun
  exact put_relist (g := (· ++ [o])) h ho (relisted_detached.inPlace.hasBlock.1 hb) List.perm_append_comm

/-- An operation is moved right before the anchor. -/
theorem moveOpBefore_put (h : ctx.Coherent) (hrun : ctx.moveOpBefore o anchor = .ok ctx') :
    ∃ b before after, ctx.blockOf anchor = some b ∧ o ≠ anchor ∧
      (ctx.opsOf b).filter (· ≠ o) = before ++ anchor :: after ∧
      ctx.Put o b (before ++ o :: anchor :: after) ctx' := by
  simp only [moveOpBefore, Outcome.bind_eq_ok] at hrun
  obtain ⟨row, hrow, hrun⟩ := hrun
  split at hrun
  · rename_i b hb
    obtain ⟨ctx₁, hdetach, hrun⟩ := Outcome.bind_eq_ok.1 hrun
    obtain ⟨position, hposition, hinsert⟩ := insertOpBefore_eq_ok.1 hrun
    have hput := detachOp_insertOpAt_put h hdetach hinsert
    obtain ⟨-, rfl⟩ := (detachOp_eq_ok h).1 hdetach
    rw [h.opsOf_detached] at hposition
    obtain ⟨before, after, hops, -, rfl⟩ := Position.idxOf?_eq_some_iff.1 hposition
    rw [hops, Position.insertIdx_length] at hput
    have hne : o ≠ anchor := by
      rintro rfl
      have hm : o ∈ (ctx.opsOf b).filter (· ≠ o) := by
        rw [hops]
        exact List.mem_append_right _ List.mem_cons_self
      simpa using List.of_mem_filter hm
    exact ⟨b, before, after, (readOp_of_op hrow _ _).trans hb, hne, hops, hput⟩
  · simp at hrun

end Place

end Context

end Offload
