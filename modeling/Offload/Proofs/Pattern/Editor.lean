import Offload.Dialect.Make
import Offload.Pattern.Editor
import Offload.Proofs.Ir.Copy
import Offload.Proofs.Ir.Evolution
import Offload.Proofs.Kind

/-!
# What editors do

The record that an editor keeps has no part in what becomes of the program. For
every step of an editor the statement here says what the program is afterwards, in
terms of what is read off it: which operations stand in which block, what they
hold, and which of them are erased.
-/

namespace Offload

namespace Context

variable {ctx ctx' : Context}

/-! ## Moved operations

Operations are moved to the start or to the end of a block one by one: each is taken from where it
is, which may be the block itself, and put behind those that were moved before it. In a coherent
context this never faults (`Editor.moveOps_collected`), and the context stays sound if the block is
nested in none of them (`Collected.gathered`). -/

section Moved

variable {o : OpRef} {os l l₁ : List OpRef} {b : BlockRef} {position : Nat} {ctx₁ : Context}

/-- What is nested in an operation stays so when it is moved. -/
theorem Put.within_self {o p : OpRef} {b : BlockRef} {l : List OpRef} (h : ctx.Put o b l ctx')
    (hw : ctx.Within p o) : ctx'.Within p o := by
  induction hw using Relation.ReflTransGen.head_induction_on with
  | refl => exact .refl o
  | @head p t habove _ ih =>
    by_cases hp : p = o
    · rw [hp]
      exact .refl o
    · exact (within_of_above (by rw [h.above, if_neg hp, habove])).trans ih

theorem filter_ne_self {o : OpRef} {l : List OpRef} (ho : o ∉ l) : l.filter (· ≠ o) = l := by
  refine List.filter_eq_self.2 fun p hp => ?_
  rw [decide_eq_true_eq]
  rintro rfl
  exact ho hp

/-- An operation that was taken from its place can be put at a position of any block. -/
theorem Coherent.insertOpAt_detached_ok (h : ctx.Coherent) (ho : ctx.HasOp o)
    (hb : ctx.HasBlock b) (hle : position ≤ ((ctx.opsOf b).filter (· ≠ o)).length) :
    ∃ ctx', (ctx.detached o).insertOpAt b position o = .ok ctx' := by
  refine ⟨_, insertOpAt_eq_ok.2 ⟨relisted_detached.inPlace.hasOp.2 ho,
    relisted_detached.inPlace.hasBlock.2 hb, (h.blockOf_detached o).trans (if_pos rfl), ?_, rfl⟩⟩
  rwa [h.opsOf_detached]

theorem Coherent.pushOp_detached_ok (h : ctx.Coherent) (ho : ctx.HasOp o) (hb : ctx.HasBlock b) :
    ∃ ctx', (ctx.detached o).pushOp b o = .ok ctx' :=
  ⟨_, pushOp_eq_ok.2 ⟨relisted_detached.inPlace.hasOp.2 ho,
    relisted_detached.inPlace.hasBlock.2 hb, (h.blockOf_detached o).trans (if_pos rfl), rfl⟩⟩

theorem Coherent.detachOp_ok (h : ctx.Coherent) (ho : ctx.HasOp o) :
    ctx.detachOp o = .ok (ctx.detached o) := (detachOp_eq_ok h).2 ⟨ho, rfl⟩

/-- Operations were taken from where they were and put into a block, in which the operations are
    `l` now. -/
structure Collected (ctx : Context) (os : List OpRef) (b : BlockRef) (l : List OpRef)
    (ctx' : Context) : Prop where
  relisted : ctx.Relisted ctx'
  coherent : ctx'.Coherent
  blockOf : ∀ p, ctx'.blockOf p = if p ∈ os then some b else ctx.blockOf p
  opsOf : ∀ c, ctx'.opsOf c = if c = b then l else (ctx.opsOf c).filter (· ∉ os)

theorem Collected.nil (h : ctx.Coherent) : ctx.Collected [] b (ctx.opsOf b) ctx where
  relisted := .refl ctx
  coherent := h
  blockOf p := (if_neg List.not_mem_nil).symm
  opsOf c := by
    split
    · rename_i hc
      rw [hc]
    · exact (List.filter_eq_self.2 (by simp)).symm

theorem filter_not_mem_cons (l : List OpRef) :
    (l.filter (· ≠ o)).filter (· ∉ os) = l.filter (· ∉ o :: os) := by
  rw [List.filter_filter]
  refine List.filter_congr fun p _ => ?_
  simp [Bool.and_comm]

theorem filter_not_mem_self {l : List OpRef} (hnew : ∀ o ∈ os, o ∉ l) :
    l.filter (· ∉ os) = l :=
  List.filter_eq_self.2 fun p hp => decide_eq_true fun hm => hnew p hm hp

/-- One operation was put into the block before the others were. -/
theorem Collected.cons (hput : ctx.Put o b l₁ ctx₁) (h : ctx₁.Collected os b l ctx') :
    ctx.Collected (o :: os) b l ctx' where
  relisted := hput.relisted.trans h.relisted
  coherent := h.coherent
  blockOf p := by
    rw [h.blockOf, hput.blockOf]
    by_cases hp : p = o <;> by_cases hos : p ∈ os <;> simp [hp, hos]
  opsOf c := by
    rw [h.opsOf]
    split
    · rfl
    · rename_i hc
      rw [hput.opsOf, if_neg hc, filter_not_mem_cons]

/-- Operations were put into a block of a sound context, in which the operations are `l` now. -/
structure Gathered (ctx : Context) (os : List OpRef) (b : BlockRef) (l : List OpRef)
    (ctx' : Context) : Prop where
  relisted : ctx.Relisted ctx'
  sound : ctx'.Sound
  opsOf : ∀ c, ctx'.opsOf c = if c = b then l else (ctx.opsOf c).filter (· ∉ os)

/-- All others stay in the blocks where they are. -/
theorem Gathered.blockOf (h : ctx.Gathered os b l ctx') (hc : ctx.Coherent)
    (hl : ∀ p, p ∈ l ↔ p ∈ ctx.opsOf b ∨ p ∈ os) (p : OpRef) :
    ctx'.blockOf p = if p ∈ os then some b else ctx.blockOf p := by
  refine Option.ext fun c => ?_
  rw [h.sound.coherent.ops.owner_iff, h.opsOf]
  by_cases hp : p ∈ os
  · rw [if_pos hp, Option.some.injEq, eq_comm (a := b)]
    split
    · rename_i hcb
      exact iff_of_true ((hl p).2 (.inr hp)) hcb
    · rename_i hcb
      exact iff_of_false (by simp [hp]) hcb
  · rw [if_neg hp, hc.ops.owner_iff]
    split
    · rename_i hcb
      rw [hl, hcb, or_iff_left hp]
    · simp [hp]

theorem Collected.above (h : ctx.Collected os b l ctx') (p : OpRef) :
    ctx'.above p = if p ∈ os then ctx.holder b else ctx.above p := by
  rw [Context.above, h.blockOf, h.relisted.inPlace.holder]
  split <;> rfl

/-- Operations that the block is in none of can be put into it in a sound context. -/
theorem Collected.gathered (h : ctx.Collected os b l ctx') (hs : ctx.Sound)
    (hout : ∀ t, ctx.holder b = some t → ∀ o ∈ os, ¬ctx.Within t o) : ctx.Gathered os b l ctx' where
  relisted := h.relisted
  sound := ⟨h.coherent, hs.grounded.attach h.above hout⟩
  opsOf := h.opsOf

end Moved

/-! ## Erased trees -/

/-- An operation was taken from its place and erased, with what is nested in it. -/
structure Erasure (ctx : Context) (o : OpRef) (ctx' : Context) : Prop where
  inPlace : ctx.InPlace ctx'
  sound : ctx'.Sound
  hasOp : ctx.HasOp o
  blockOf : ∀ p, ctx'.blockOf p = if p = o then none else ctx.blockOf p
  opsOf : ∀ b, ctx'.opsOf b = (ctx.opsOf b).filter (· ≠ o)
  erased : ∀ p, ctx'.isErased p ↔ ctx.Within p o ∨ ctx.isErased p
  held : ∀ p, ¬ctx'.isErased p → ctx'.heldBy p = ctx.heldBy p
  unused : ∀ p, ctx.Within p o → ∀ v ∈ ctx.results p, ∀ u ∈ ctx.uses.get v, ctx.Within u.user o

theorem Erasure.evolves {o : OpRef} (h : ctx.Erasure o ctx') : ctx.Evolves ctx' :=
  h.inPlace.evolves (fun p hp => (h.erased p).2 (.inr hp)) fun p hp => by rw [h.held p hp]

theorem Coherent.above_detached (h : ctx.Coherent) {o : OpRef} (p : OpRef) :
    (ctx.detached o).above p = if p = o then none else ctx.above p := by
  rw [above, h.blockOf_detached, relisted_detached.inPlace.holder]
  split <;> rfl

/-- Taking an operation from its place changes no way up to it. -/
theorem Coherent.within_detached (h : ctx.Coherent) {o p : OpRef} :
    (ctx.detached o).Within p o ↔ ctx.Within p o := by
  constructor
  · intro hw
    induction hw using Relation.ReflTransGen.head_induction_on with
    | refl => exact .refl o
    | @head p t hstep _ ih =>
      rw [h.above_detached] at hstep
      split at hstep
      · cases hstep
      · exact (within_of_above hstep).trans ih
  · intro hw
    induction hw using Relation.ReflTransGen.head_induction_on with
    | refl => exact .refl o
    | @head p t hstep _ ih =>
      by_cases hp : p = o
      · exact hp ▸ .refl p
      · exact (within_of_above (by rw [h.above_detached, if_neg hp, hstep])).trans ih

/-- An operation that is taken from its place and erased is marked with its tree. -/
theorem Coherent.marked_of_detachOp (h : ctx.Coherent) {ctx₁ : Context} {o : OpRef}
    (hdetach : ctx.detachOp o = .ok ctx₁) (hrun : ctx₁.eraseOp o = .ok ctx') :
    ctx.HasOp o ∧ ∃ tree, (∀ p, p ∈ tree ↔ ctx.Within p o) ∧ (ctx.detached o).Unused tree ∧
      (ctx.detached o).Marked tree ctx' := by
  obtain ⟨ho, rfl⟩ := (detachOp_eq_ok h).1 hdetach
  obtain ⟨-, -, tree, htree, -, hunused, hmarked⟩ := (h.detached o).eraseOp_spec hrun
  exact ⟨ho, tree, fun p => ((h.detached o).mem_subtree_iff htree).trans h.within_detached,
    hunused, hmarked⟩

theorem Sound.erasure {ctx₁ : Context} {o : OpRef} (h : ctx.Sound)
    (hdetach : ctx.detachOp o = .ok ctx₁) (hrun : ctx₁.eraseOp o = .ok ctx') :
    ctx.Erasure o ctx' := by
  obtain ⟨ho, tree, hmem, hunused, hmarked⟩ := h.coherent.marked_of_detachOp hdetach hrun
  have hdet : ctx.Relisted (ctx.detached o) := relisted_detached
  refine ⟨hdet.inPlace.trans hmarked.inPlace, (h.detached o).marked hmarked, ho, fun p => ?_,
    fun b => ?_, fun p => ?_, fun p hp => ?_, fun p hp v hv u hu => ?_⟩
  · rw [hmarked.blockOf, h.coherent.blockOf_detached]
  · rw [hmarked.opsOf, h.coherent.opsOf_detached]
  · rw [hmarked.erased, hmem, hdet.erased]
  · rw [hmarked.heldBy hp, hdet.heldBy]
  · rw [← hmem] at hp ⊢
    refine hunused p hp v ?_ u ?_
    · rwa [hdet.inPlace.results]
    · rwa [hdet.uses]

/-! ## Renamed values -/

/-- Values were put in the place of others wherever these were held. -/
structure Renamed (ctx : Context) (ρ : ValueRef → ValueRef) (ctx' : Context) : Prop where
  inPlace : ctx.InPlace ctx'
  sound : ctx'.Sound
  blockOf : ctx'.blockOf = ctx.blockOf
  opsOf : ctx'.opsOf = ctx.opsOf
  erased : ctx'.isErased = ctx.isErased
  held : ∀ o, ctx'.heldBy o = (ctx.heldBy o).map ρ

theorem Renamed.evolves {ρ : ValueRef → ValueRef} (h : ctx.Renamed ρ ctx') : ctx.Evolves ctx' :=
  h.inPlace.evolves (fun o ho => by rwa [h.erased]) fun o _ => by rw [h.held, List.length_map]

/-! ## Created operations -/

/-- An operation without any parts. -/
structure Bare (ctx : Context) (kind : OpKind) (o : OpRef) : Prop where
  hasOp : ctx.HasOp o
  kind : ctx.kindOf o = kind
  operands : ctx.operandsOf o = []
  results : ctx.results o = []
  regions : ctx.regionsOf o = []
  live : ctx.isErased o = false

theorem Bare.relisted {kind : OpKind} {o : OpRef} (h : ctx.Bare kind o)
    (hr : ctx.Relisted ctx') : ctx'.Bare kind o where
  hasOp := hr.inPlace.hasOp.2 h.hasOp
  kind := (congrFun (hr.inPlace.readOp _ _ fun _ => rfl) o).trans h.kind
  operands := (congrFun hr.operands o).trans h.operands
  results := (congrFun hr.inPlace.results o).trans h.results
  regions := (congrFun (hr.inPlace.readOp _ _ fun _ => rfl) o).trans h.regions
  live := (congrFun hr.erased o).trans h.live

/-- It stays so when something is erased that it is not in. -/
theorem Bare.erasure {kind : OpKind} {o p : OpRef} (h : ctx.Bare kind o) (he : ctx.Erasure p ctx')
    (hp : ¬ctx.Within o p) : ctx'.Bare kind o := by
  have hlive : ¬ctx.isErased o := by
    rw [h.live]
    exact Bool.false_ne_true
  have hlive' : ¬ctx'.isErased o := by
    rw [he.erased]
    exact fun hor => hor.elim hp hlive
  have hheld := he.held o hlive'
  rw [heldBy_eq, heldBy_eq, if_neg hlive, if_neg hlive', h.operands] at hheld
  exact ⟨he.inPlace.hasOp.2 h.hasOp,
    (congrFun (he.inPlace.readOp _ _ fun _ => rfl) o).trans h.kind, hheld,
    (congrFun he.inPlace.results o).trans h.results,
    (congrFun (he.inPlace.readOp _ _ fun _ => rfl) o).trans h.regions,
    Bool.not_eq_true _ ▸ hlive'⟩

/-- Nothing is nested in an operation without parts. -/
theorem Bare.not_within {kind : OpKind} {o p : OpRef} (h : ctx.Bare kind o) (hc : ctx.Coherent)
    (hp : p ≠ o) : ¬ctx.Within p o := by
  intro hw
  obtain ⟨c, hc', -⟩ := (within_iff_below.1 hw).resolve_left hp
  obtain ⟨b, r, -, -, hr⟩ := above_eq_some_iff.1 hc'
  have := (hc.regions.owner_iff r o).1 hr
  rw [h.regions] at this
  cases this

/-- An operation without any parts was created. -/
structure Created (ctx : Context) (kind : OpKind) (o : OpRef) (ctx' : Context) : Prop where
  evolves : ctx.Evolves ctx'
  sound : ctx'.Sound
  isNew : ¬ctx.HasOp o
  bare : ctx'.Bare kind o
  hasOp : ∀ p, ctx'.HasOp p ↔ ctx.HasOp p ∨ p = o
  blockOf : ctx'.blockOf = ctx.blockOf
  opsOf : ctx'.opsOf = ctx.opsOf
  holder : ctx'.holder = ctx.holder
  erased : ctx'.isErased = ctx.isErased
  held : ctx'.heldBy = ctx.heldBy

theorem createOp_bare {location : Location} {kind : OpKind} :
    ctx.createOp (.bare location kind) = .ok (ctx.addOp (.bare location kind)) := rfl

theorem Sound.created (h : ctx.Sound) (location : Location) (kind : OpKind) :
    ctx.Created kind (ctx.addOp (.bare location kind)).2
      (ctx.addOp (.bare location kind)).1 := by
  rw [addOp_snd]
  have hread {α : Type} (f : Operation → α) (default : α)
      (hf : f (ctx.freshRow (.bare location kind)) = default) :
      (ctx.addOp (.bare location kind)).1.readOp f default = ctx.readOp f default := by
    funext o
    rw [readOp_addOp]
    split
    · rename_i ho
      rw [hf, ho, readOp_of_not_hasOp not_hasOp_size]
    · rfl
  have hnew {α : Type} (f : Operation → α) (default : α) :
      (ctx.addOp (.bare location kind)).1.readOp f default ⟨ctx.ops.size⟩ =
        f (ctx.freshRow (.bare location kind)) := by
    rw [readOp_addOp, if_pos rfl]
  have hsize : (ctx.addOp (.bare location kind)).1.ops.size = ctx.ops.size + 1 := by
    simp only [Context.addOp, foldl_modifyRegion, addValues, Array.size_push]
  refine ⟨((Extends.refl ctx).addOp (by simp [Blueprint.bare])).evolves rfl rfl,
    h.addOp (by simp [Blueprint.bare]) (by simp [Blueprint.bare]) (by simp [Blueprint.bare]),
    not_hasOp_size, ⟨?_, hnew _ _, hnew _ _, ?_, hnew _ _, ?_⟩, fun p => ?_, hread _ _ rfl,
    ?_, ?_, ?_, hread _ _ rfl⟩
  · rw [HasOp, hsize]
    exact Nat.lt_succ_self _
  · rw [results_eq_readOp]
    exact hnew _ _
  · rw [isErased_eq_readOp]
    exact hnew _ _
  · rw [HasOp, HasOp, hsize, Nat.lt_succ_iff_lt_or_eq, ← OpRef.index_inj]
  · funext b
    exact readBlock_addOp _ _ b
  · funext b
    have hr : (ctx.addOp (.bare location kind)).1.regionOf b = ctx.regionOf b :=
      readBlock_addOp _ _ b
    have ho (r : RegionRef) : (ctx.addOp (.bare location kind)).1.ownerOf r = ctx.ownerOf r :=
      (readRegion_addOp _ _ r).trans (if_neg (by simp [Blueprint.bare]))
    rw [holder, holder, hr, funext ho]
  · rw [isErased_eq_readOp, isErased_eq_readOp]
    exact hread _ _ rfl

theorem Sound.createOp_created (h : ctx.Sound) {location : Location} {kind : OpKind} {o : OpRef}
    (hrun : ctx.createOp (.bare location kind) = .ok (ctx', o)) : ctx.Created kind o ctx' := by
  have hcreated := h.created location kind
  rwa [Except.ok.inj (createOp_bare.symm.trans hrun)] at hcreated

end Context

namespace Editor

open Context

variable {e e' : Editor} {o : OpRef} {b : BlockRef} {os before after : List OpRef}

@[simp]
theorem context_touch : (e.touch o).context = e.context := by
  rw [touch]
  split <;> rfl

@[simp]
theorem context_touchAll : (e.touchAll os).context = e.context := by
  induction os generalizing e with
  | nil => rfl
  | cons o os ih => exact ih.trans context_touch

/-! ## Movement -/

theorem moveOpBefore_eq_ok {anchor : OpRef} (hrun : e.moveOpBefore o anchor = .ok e') :
    e.context.moveOpBefore o anchor = .ok e'.context := by
  simp only [moveOpBefore, insertOpBefore, Outcome.bind_eq_ok, Outcome.pure_eq_ok] at hrun
  obtain ⟨ctx, hmove, rfl⟩ := hrun
  rw [context_touch]
  exact hmove

theorem touch_withContext (ctx : Context) (o : OpRef) :
    (e.withContext ctx).touch o = (e.touch o).withContext ctx := by
  rw [touch, touch]
  change (if o ∈ e.touched then _ else _) = _
  split <;> rfl

theorem touchAll_withContext (ctx : Context) :
    (e.withContext ctx).touchAll os = (e.touchAll os).withContext ctx := by
  induction os generalizing e with
  | nil => rfl
  | cons o os ih =>
    rw [touchAll, List.foldl_cons, touch_withContext]
    exact ih

/-- Operations are moved to a position of a block, up to which there are none of them. -/
theorem moveOpsTo_collected (h : e.context.Coherent) (hb : e.context.HasBlock b)
    (hos : ∀ o ∈ os, e.context.HasOp o) (hnodup : os.Nodup)
    (hops : e.context.opsOf b = before ++ after) (hbefore : ∀ o ∈ os, o ∉ before) :
    ∃ ctx', moveOpsTo b e before.length os = .ok ((e.touchAll os).withContext ctx') ∧
      e.context.Collected os b (before ++ os ++ after.filter (· ∉ os)) ctx' := by
  induction os generalizing e before after with
  | nil =>
    refine ⟨e.context, rfl, ?_⟩
    rw [List.append_nil, List.filter_eq_self.2 (by simp), ← hops]
    exact .nil h
  | cons o os ih =>
    obtain ⟨ho, hnodup⟩ := List.nodup_cons.1 hnodup
    obtain ⟨hex, hos⟩ := List.forall_mem_cons.1 hos
    obtain ⟨hnew, hbefore⟩ := List.forall_mem_cons.1 hbefore
    -- those that stand in front are other ones, so there is room behind them
    have hrest : (e.context.opsOf b).filter (· ≠ o) = before ++ after.filter (· ≠ o) := by
      rw [hops, List.filter_append, filter_ne_self hnew]
    have hle : before.length ≤ ((e.context.opsOf b).filter (· ≠ o)).length := by
      rw [hrest, List.length_append]
      exact Nat.le_add_right _ _
    obtain ⟨ctx₁, hinsert⟩ := h.insertOpAt_detached_ok hex hb hle
    have hput := detachOp_insertOpAt_put h (h.detachOp_ok hex) hinsert
    rw [hrest, Position.insertIdx_length] at hput
    have hops₁ : ctx₁.opsOf b = (before ++ [o]) ++ after.filter (· ≠ o) :=
      (hput.opsOf b).trans (by simp)
    obtain ⟨ctx', hrun, hcollected⟩ := ih (e := (e.touch o).withContext ctx₁) (h.put hput)
      (hput.relisted.inPlace.hasBlock.2 hb)
      (fun p hp => hput.relisted.inPlace.hasOp.2 (hos p hp)) hnodup hops₁
      (fun p hp => by
        rw [List.mem_append, List.mem_singleton, not_or]
        exact ⟨hbefore p hp, fun heq => ho (heq ▸ hp)⟩)
    refine ⟨ctx', ?_, ?_⟩
    · rw [touchAll_withContext, List.length_append] at hrun
      simp only [moveOpsTo, h.detachOp_ok hex, hinsert, Outcome.ok_bind, touch_withContext]
      exact hrun
    · rw [filter_not_mem_cons] at hcollected
      simpa using Collected.cons hput hcollected

/-- Operations are moved to the end of a block. -/
theorem moveOpsToEnd_collected (h : e.context.Coherent) (hb : e.context.HasBlock b)
    (hos : ∀ o ∈ os, e.context.HasOp o) (hnodup : os.Nodup) :
    ∃ ctx', moveOpsToEnd e os b = .ok ((e.touchAll os).withContext ctx') ∧
      e.context.Collected os b ((e.context.opsOf b).filter (· ∉ os) ++ os) ctx' := by
  induction os generalizing e with
  | nil =>
    refine ⟨e.context, rfl, ?_⟩
    rw [List.append_nil, List.filter_eq_self.2 (by simp)]
    exact .nil h
  | cons o os ih =>
    obtain ⟨ho, hnodup⟩ := List.nodup_cons.1 hnodup
    obtain ⟨hex, hos⟩ := List.forall_mem_cons.1 hos
    obtain ⟨ctx₁, hpush⟩ := h.pushOp_detached_ok hex hb
    have hput := detachOp_pushOp_put h (h.detachOp_ok hex) hpush
    obtain ⟨ctx', hrun, hcollected⟩ := ih (e := (e.touch o).withContext ctx₁) (h.put hput)
      (hput.relisted.inPlace.hasBlock.2 hb)
      (fun p hp => hput.relisted.inPlace.hasOp.2 (hos p hp)) hnodup
    refine ⟨ctx', ?_, ?_⟩
    · rw [touchAll_withContext] at hrun
      simp only [moveOpsToEnd, h.detachOp_ok hex, hpush, Outcome.ok_bind, touch_withContext]
      exact hrun
    · -- the one before stays where it was put, as it is none of the others
      have hops : (ctx₁.opsOf b).filter (· ∉ os) =
          (e.context.opsOf b).filter (· ∉ o :: os) ++ [o] := by
        rw [hput.opsOf, if_pos rfl, List.filter_append, filter_not_mem_cons]
        simp [ho]
      change ctx₁.Collected os b ((ctx₁.opsOf b).filter (· ∉ os) ++ os) ctx' at hcollected
      rw [hops] at hcollected
      simpa using Collected.cons hput hcollected

/-- Whatever operations are moved, and wherever they are, they stand in their order before or after
    what else is in the block, and what else is in it or in any other block keeps its order. -/
theorem moveOps_collected (h : e.context.Coherent) (hb : e.context.HasBlock b)
    (hos : ∀ o ∈ os, e.context.HasOp o) (hnodup : os.Nodup) :
    (∃ e', e.moveOpsToStart os b = .ok e' ∧
      e.context.Collected os b (os ++ (e.context.opsOf b).filter (· ∉ os)) e'.context) ∧
    ∃ e', e.moveOpsToEnd os b = .ok e' ∧
      e.context.Collected os b ((e.context.opsOf b).filter (· ∉ os) ++ os) e'.context := by
  constructor
  · obtain ⟨ctx', hrun, hcollected⟩ := moveOpsTo_collected h hb hos hnodup
      (show _ = [] ++ e.context.opsOf b from rfl) fun _ _ => List.not_mem_nil
    exact ⟨_, hrun, hcollected⟩
  · obtain ⟨ctx', hrun, hcollected⟩ := moveOpsToEnd_collected h hb hos hnodup
    exact ⟨_, hrun, hcollected⟩

/-- Operations of the block itself, of another one, and of none. -/
theorem moveOps_collected_mixed : ∃ (e e₁ e₂ : Editor) (b c : BlockRef), e.context.Coherent ∧
    e.context.opsOf b = [⟨0⟩, ⟨1⟩, ⟨2⟩] ∧ e.context.opsOf c = [⟨3⟩, ⟨4⟩] ∧
    e.moveOpsToStart [⟨4⟩, ⟨1⟩, ⟨5⟩, ⟨0⟩] b = .ok e₁ ∧
    e₁.context.opsOf b = [⟨4⟩, ⟨1⟩, ⟨5⟩, ⟨0⟩, ⟨2⟩] ∧ e₁.context.opsOf c = [⟨3⟩] ∧
    e.moveOpsToEnd [⟨4⟩, ⟨1⟩, ⟨5⟩, ⟨0⟩] b = .ok e₂ ∧
    e₂.context.opsOf b = [⟨2⟩, ⟨4⟩, ⟨1⟩, ⟨5⟩, ⟨0⟩] ∧ e₂.context.opsOf c = [⟨3⟩] := by
  let location : Location := ⟨⟨0⟩, ⟨0, 0⟩⟩
  let add (ctx : Context) : Context := (ctx.addOp (.bare location .barrier)).1
  have hadd (ctx : Context) (h : ctx.Sound) : (add ctx).Sound := (h.created location .barrier).sound
  let ctx₀ := add (add (add (add (add (add .empty)))))
  let ctx₁ := (ctx₀.addBlock location [] [⟨0⟩, ⟨1⟩, ⟨2⟩]).1
  let ctx₂ := (ctx₁.addBlock location [] [⟨3⟩, ⟨4⟩]).1
  have h₀ : ctx₀.Sound := hadd _ (hadd _ (hadd _ (hadd _ (hadd _ (hadd _ sound_empty)))))
  have h₁ : ctx₁.Sound := h₀.addBlock (by decide) (by decide) (by decide)
  have h₂ : ctx₂.Sound := h₁.addBlock (by decide) (by decide) (by decide)
  have hb : ctx₂.opsOf ⟨0⟩ = [⟨0⟩, ⟨1⟩, ⟨2⟩] := by decide
  have hc : ctx₂.opsOf ⟨1⟩ = [⟨3⟩, ⟨4⟩] := by decide
  have hos : ∀ o ∈ ([⟨4⟩, ⟨1⟩, ⟨5⟩, ⟨0⟩] : List OpRef), ctx₂.HasOp o := by decide
  obtain ⟨⟨e₁, hrun₁, hmoved₁⟩, e₂, hrun₂, hmoved₂⟩ := moveOps_collected (e := ⟨ctx₂, [], []⟩)
    (b := ⟨0⟩) h₂.coherent (by decide) hos (by decide)
  refine ⟨⟨ctx₂, [], []⟩, e₁, e₂, ⟨0⟩, ⟨1⟩, h₂.coherent, hb, hc, hrun₁, ?_, ?_, hrun₂, ?_, ?_⟩
  · rw [hmoved₁.opsOf, hb]
    decide
  · rw [hmoved₁.opsOf, hc]
    decide
  · rw [hmoved₂.opsOf, hb]
    decide
  · rw [hmoved₂.opsOf, hc]
    decide

/-! ## Erasure and replacement -/

/-- The operation above the erased one is noted, and the erased one struck out. -/
theorem eraseOp_eq_ok (hrun : e.eraseOp o = .ok e') :
    ∃ ctx₁, e.context.detachOp o = .ok ctx₁ ∧ ctx₁.eraseOp o = .ok e'.context ∧
      e'.touched = ((e.context.above o).elim e e.touch).touched.filter (· ≠ o) := by
  simp only [eraseOp, Outcome.bind_eq_ok, Outcome.pure_eq_ok] at hrun
  obtain ⟨parent, hparent, ctx₁, hdetach, ctx₂, herase, rfl⟩ := hrun
  obtain ⟨-, rfl⟩ := parentOp_eq_ok hparent
  cases habove : e.context.above o with
  | none =>
    simp only [habove] at hdetach
    exact ⟨ctx₁, hdetach, herase, rfl⟩
  | some p =>
    simp only [habove, context_touch] at hdetach
    exact ⟨ctx₁, hdetach, herase, rfl⟩

theorem eraseOp_erasure (h : e.context.Sound) (hrun : e.eraseOp o = .ok e') :
    e.context.Erasure o e'.context := by
  obtain ⟨ctx₁, hdetach, herase, -⟩ := eraseOp_eq_ok hrun
  exact h.erasure hdetach herase

/-- Values that are put in the place of others all at once. -/
theorem replaceValues_renamed (h : e.context.Sound) {olds news : List ValueRef}
    (hlength : olds.length = news.length) (hnodup : olds.Nodup) (hnew : ∀ v ∈ news, v ∉ olds)
    (hrun : replaceValues e (olds.zip news) = .ok e') :
    ∃ ρ, e.context.Renamed ρ e'.context ∧ olds.map ρ = news ∧ ∀ v, v ∉ olds → ρ v = v := by
  induction olds generalizing e news with
  | nil =>
    obtain rfl := List.length_eq_zero_iff.1 hlength.symm
    obtain rfl := Outcome.pure_eq_ok.1 hrun
    exact ⟨id, ⟨.refl _, h, rfl, rfl, rfl, fun o => (List.map_id _).symm⟩, rfl, fun v _ => rfl⟩
  | cons old olds ih =>
    cases news with
    | nil => cases hlength
    | cons new news =>
      obtain ⟨hold, hnodup⟩ := List.nodup_cons.1 hnodup
      have hne : old ≠ new := fun e => hnew new List.mem_cons_self (e ▸ List.mem_cons_self)
      simp only [List.zip_cons_cons, replaceValues, Outcome.bind_eq_ok] at hrun
      obtain ⟨ctx₁, hreplace, hrun⟩ := hrun
      obtain ⟨ctx₁', hreplace', hw⟩ := h.coherent.replaceAllUses hne
      obtain rfl := Except.ok.inj (hreplace.symm.trans hreplace')
      obtain ⟨ρ, hρ, hmap, hout⟩ := ih (e := (e.withContext ctx₁).touchAll _)
        (by rw [context_touchAll]; exact h.rewired hne hw) (Nat.succ.inj hlength) hnodup
        (fun v hv hm => hnew v (List.mem_cons_of_mem new hv) (List.mem_cons_of_mem old hm)) hrun
      rw [context_touchAll] at hρ
      have hfix : ρ new = new := hout new fun hm =>
        hnew new List.mem_cons_self (List.mem_cons_of_mem old hm)
      refine ⟨fun v => ρ (if v = old then new else v),
        ⟨hw.inPlace.trans hρ.inPlace, hρ.sound, hρ.blockOf.trans hw.blockOf,
          hρ.opsOf.trans hw.opsOf, hρ.erased.trans hw.erased, fun o => ?_⟩, ?_, fun v hv => ?_⟩
      · rw [hρ.held, show (e.withContext ctx₁).context = ctx₁ from rfl, hw.held, List.map_map]
        rfl
      · rw [List.map_cons, if_pos rfl, hfix, ← hmap]
        congr 1
        refine List.map_congr_left fun v hv => ?_
        have hv' : v ≠ old := fun e => hold (e ▸ hv)
        rw [if_neg hv']
      · rw [List.mem_cons, not_or] at hv
        exact (congrArg ρ (if_neg hv.1)).trans (hout v hv.2)

/-- The results of an operation are replaced, and then it is erased. -/
theorem replaceOpWithValues_eq_ok {values : List ValueRef} :
    e.replaceOpWithValues o values = .ok e' ↔ (e.context.results o).length = values.length ∧
      ∃ e₁, replaceValues e ((e.context.results o).zip values) = .ok e₁ ∧ e₁.eraseOp o = .ok e' := by
  rw [replaceOpWithValues]
  by_cases hlength : (e.context.results o).length = values.length
  · simp only [hlength, ne_eq, not_true_eq_false, if_false, true_and]
    exact Outcome.bind_eq_ok
  · simp [hlength]

/-- The last operation of a block is erased, and another one is put in its place. -/
theorem replaceTerminator_spec (h : e.context.Sound)
    (hrun : e.replaceTerminator b o = .ok e') :
    ∃ old ctx₁, (e.context.opsOf b).getLast? = some old ∧ e.context.Erasure old ctx₁ ∧
      ctx₁.Put o b (ctx₁.opsOf b ++ [o]) e'.context := by
  simp only [replaceTerminator, terminator?, Outcome.bind_eq_ok, Outcome.pure_eq_ok] at hrun
  obtain ⟨last, ⟨block, hblock, rfl⟩, hrun⟩ := hrun
  have hops : e.context.opsOf b = block.ops := readBlock_of_block hblock _ _
  cases hlast : block.ops.getLast? with
  | none => simp [hlast] at hrun
  | some old =>
    simp only [hlast, insertOpAtEnd, Outcome.bind_eq_ok, Outcome.pure_eq_ok] at hrun
    obtain ⟨e₁, herase, ctx₂, hpush, rfl⟩ := hrun
    have herased := eraseOp_erasure h herase
    refine ⟨old, e₁.context, by rw [hops, hlast], herased, ?_⟩
    rw [context_touch]
    exact pushOp_put herased.sound.coherent hpush

/-- A copy is put at the start of a block. -/
theorem cloneOpAtStart_spec (h : e.context.Sound) {copy : OpRef}
    (hrun : e.cloneOpAtStart o b = .ok (e', copy)) :
    ∃ ctx₁ map, e.context.HasOp o ∧ e.context.Cloned o .empty ctx₁ map copy ∧
      ctx₁.Put copy b (copy :: ctx₁.opsOf b) e'.context := by
  simp only [cloneOpAtStart, insertOpAtStart, Outcome.bind_eq_ok, Outcome.pure_eq_ok,
    Prod.exists, Prod.mk.injEq] at hrun
  obtain ⟨ctx₁, map, _, hclone, e₁, ⟨ctx₂, hinsert, rfl⟩, rfl, rfl⟩ := hrun
  obtain ⟨ho, hcloned⟩ := h.cloneOp_spec hclone
  refine ⟨ctx₁, map, ho, hcloned, ?_⟩
  rw [context_touch]
  have hput := insertOpAt_put hcloned.sound.coherent hinsert
  rwa [List.insertIdx_zero] at hput

end Editor

end Offload
