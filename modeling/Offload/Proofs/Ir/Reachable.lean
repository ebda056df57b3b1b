import Mathlib.Data.List.Count
import Offload.Proofs.Ir.Copy

/-!
# Reachable contexts

The tables of a context that was reached from the empty one by changes that
succeeded agree with each other (`consistent_of_reachable`), whatever the
changes were and in whatever order they came. The invariant is soundness: no
change puts an operation into its own tree, so every context on the way is sound
(`Step.sound`), and the tables of a sound context agree (`Coherent.consistent`).
-/

namespace Offload.Context

/-! ## The steps -/

/-- A change that succeeds. A new block is given detached operations, each named
    once, and no operation is put into its own tree. -/
inductive Step (ctx : Context) : Context → Prop
  | createOp {blueprint : Blueprint} {ctx' : Context} {o : OpRef}
      (run : ctx.createOp blueprint = .ok (ctx', o)) : Step ctx ctx'
  | createBlock {location : Location} {argTypes : List TypeRef} {ops : List OpRef}
      {ctx' : Context} {b : BlockRef} (free : ∀ o ∈ ops, ctx.blockOf o = none)
      (nodup : ops.Nodup) (run : ctx.createBlock location argTypes ops = .ok (ctx', b)) :
      Step ctx ctx'
  | createRegion {location : Location} {blocks : List BlockRef} {ctx' : Context}
      {r : RegionRef} (run : ctx.createRegion location blocks = .ok (ctx', r)) : Step ctx ctx'
  | pushOp {b : BlockRef} {o : OpRef} {ctx' : Context}
      (outside : ∀ t, ctx.holder b = some t → ¬ctx.Within t o)
      (run : ctx.pushOp b o = .ok ctx') : Step ctx ctx'
  | insertOpAt {b : BlockRef} {position : Nat} {o : OpRef} {ctx' : Context}
      (outside : ∀ t, ctx.holder b = some t → ¬ctx.Within t o)
      (run : ctx.insertOpAt b position o = .ok ctx') : Step ctx ctx'
  | insertOpBefore {b : BlockRef} {anchor o : OpRef} {ctx' : Context}
      (outside : ∀ t, ctx.holder b = some t → ¬ctx.Within t o)
      (run : ctx.insertOpBefore b anchor o = .ok ctx') : Step ctx ctx'
  | moveOpBefore {o anchor : OpRef} {ctx' : Context}
      (outside : ∀ t, ctx.above anchor = some t → ¬ctx.Within t o)
      (run : ctx.moveOpBefore o anchor = .ok ctx') : Step ctx ctx'
  | detachOp {o : OpRef} {ctx' : Context} (run : ctx.detachOp o = .ok ctx') : Step ctx ctx'
  | removeOpFromBlock {b : BlockRef} {o : OpRef} {ctx' : Context}
      (run : ctx.removeOpFromBlock b o = .ok ctx') : Step ctx ctx'
  | eraseOp {o : OpRef} {ctx' : Context} (run : ctx.eraseOp o = .ok ctx') : Step ctx ctx'
  | replaceAllUses {old new : ValueRef} {ctx' : Context}
      (run : ctx.replaceAllUses old new = .ok ctx') : Step ctx ctx'
  | cloneOp {o copy : OpRef} {map map' : ValueMap} {ctx' : Context}
      (run : ctx.cloneOp o map = .ok (ctx', map', copy)) : Step ctx ctx'
  | internType (node : TypeNode) : Step ctx (ctx.internType node).1
  | internPath (path : String) : Step ctx (ctx.internPath path).1
  | internSymbols (names : List String) : Step ctx (ctx.internSymbols names)
  | setAttribute (o : OpRef) (key : String) (a : Attribute) : Step ctx (ctx.setAttribute o key a)

/-- Reached from the empty context by changes that succeed. -/
def Reachable (ctx : Context) : Prop := Relation.ReflTransGen Step empty ctx

/-! ## Steps keep contexts sound -/

variable {ctx ctx' : Context}

theorem checkRegionsFree_eq_ok {o : OpRef} {owned rs : List RegionRef}
    (hrun : ctx.checkRegionsFree o owned rs = .ok ()) :
    (∀ r ∈ rs, ctx.HasRegion r ∧ ctx.ownerOf r = none ∧ r ∉ owned) ∧ rs.Nodup := by
  induction rs generalizing owned with
  | nil => exact ⟨by simp, List.nodup_nil⟩
  | cons r rs ih =>
    rw [checkRegionsFree] at hrun
    obtain ⟨row, hrow, hrun⟩ := Outcome.bind_eq_ok.1 hrun
    split at hrun
    · simp at hrun
    · rename_i hfree
      split at hfree
      · cases hfree
      · rename_i hr
        obtain ⟨hrs, hnodup⟩ := ih hrun
        refine ⟨List.forall_mem_cons.2
          ⟨⟨hasRegion_iff.2 ⟨row, hrow⟩, (readRegion_of_region hrow _ _).trans hfree, hr⟩,
            fun s hs => ⟨(hrs s hs).1, (hrs s hs).2.1, fun h =>
              (hrs s hs).2.2 (List.mem_cons_of_mem r h)⟩⟩,
          List.nodup_cons.2 ⟨fun h => (hrs r h).2.2 List.mem_cons_self, hnodup⟩⟩

theorem checkBlocksFree_eq_ok {r : RegionRef} {owned bs : List BlockRef}
    (hrun : ctx.checkBlocksFree r owned bs = .ok ()) :
    (∀ b ∈ bs, ctx.HasBlock b ∧ ctx.regionOf b = none ∧ b ∉ owned) ∧ bs.Nodup := by
  induction bs generalizing owned with
  | nil => exact ⟨by simp, List.nodup_nil⟩
  | cons b bs ih =>
    rw [checkBlocksFree] at hrun
    obtain ⟨row, hrow, hrun⟩ := Outcome.bind_eq_ok.1 hrun
    split at hrun
    · simp at hrun
    · rename_i hfree
      split at hfree
      · cases hfree
      · rename_i hb
        obtain ⟨hbs, hnodup⟩ := ih hrun
        refine ⟨List.forall_mem_cons.2
          ⟨⟨hasBlock_iff.2 ⟨row, hrow⟩, (readBlock_of_block hrow _ _).trans hfree, hb⟩,
            fun c hc => ⟨(hbs c hc).1, (hbs c hc).2.1, fun h =>
              (hbs c hc).2.2 (List.mem_cons_of_mem b h)⟩⟩,
          List.nodup_cons.2 ⟨fun h => (hbs b h).2.2 List.mem_cons_self, hnodup⟩⟩

theorem Sound.createOp {blueprint : Blueprint} {o : OpRef} (h : ctx.Sound)
    (hrun : ctx.createOp blueprint = .ok (ctx', o)) : ctx'.Sound := by
  simp only [Context.createOp, Outcome.bind_eq_ok, Outcome.pure_eq_ok] at hrun
  obtain ⟨⟨⟩, hcheck, hrun⟩ := hrun
  obtain ⟨hrs, hnodup⟩ := checkRegionsFree_eq_ok hcheck
  obtain rfl : (ctx.addOp blueprint).1 = ctx' := congrArg Prod.fst hrun
  exact h.addOp (fun r hr => (hrs r hr).1) (fun r hr => (hrs r hr).2.1) hnodup

theorem Sound.createBlock {location : Location} {argTypes : List TypeRef} {ops : List OpRef}
    {b : BlockRef} (h : ctx.Sound) (hfree : ∀ o ∈ ops, ctx.blockOf o = none)
    (hnodup : ops.Nodup) (hrun : ctx.createBlock location argTypes ops = .ok (ctx', b)) :
    ctx'.Sound := by
  simp only [Context.createBlock, Outcome.bind_eq_ok, Outcome.pure_eq_ok] at hrun
  obtain ⟨⟨⟩, hcheck, hrun⟩ := hrun
  obtain rfl : (ctx.addBlock location argTypes ops).1 = ctx' := congrArg Prod.fst hrun
  refine h.addBlock (fun o ho => ?_) hfree hnodup
  clear hrun hfree hnodup
  induction ops with
  | nil => cases ho
  | cons p ops ih =>
    simp only [List.forIn_cons, bind_assoc, pure_bind, Outcome.bind_eq_ok] at hcheck
    obtain ⟨row, hrow, hcheck⟩ := hcheck
    rcases List.mem_cons.1 ho with rfl | ho
    · exact hasOp_iff.2 ⟨row, hrow⟩
    · exact ih hcheck ho

theorem Sound.createRegion {location : Location} {blocks : List BlockRef} {r : RegionRef}
    (h : ctx.Sound) (hrun : ctx.createRegion location blocks = .ok (ctx', r)) : ctx'.Sound := by
  simp only [Context.createRegion, Outcome.bind_eq_ok, Outcome.pure_eq_ok] at hrun
  obtain ⟨⟨⟩, hcheck, hrun⟩ := hrun
  obtain ⟨hbs, hnodup⟩ := checkBlocksFree_eq_ok hcheck
  obtain rfl : (ctx.addRegion location blocks).1 = ctx' := congrArg Prod.fst hrun
  exact h.addRegion (fun b hb => (hbs b hb).1) (fun b hb => (hbs b hb).2.1) hnodup

/-- An operation that does not record a block is not listed in it, so taking it out
    of the list makes no difference. -/
theorem Sound.removeOpFromBlock {b : BlockRef} {o : OpRef} (h : ctx.Sound)
    (hrun : ctx.removeOpFromBlock b o = .ok ctx') : ctx'.Sound := by
  obtain ⟨ho, hb, rfl⟩ := removeOpFromBlock_eq_ok.1 hrun
  split
  · rename_i hmem
    have := h.detached o
    rwa [Context.detached, hmem] at this
  · rename_i hmem
    have hin : ctx.InPlace
        (ctx.modifyBlock b fun row => { row with ops := row.ops.filter (· ≠ o) }) :=
      .modifyBlock b _ fun _ => rfl
    have hops (c : BlockRef) :
        (ctx.modifyBlock b fun row => { row with ops := row.ops.filter (· ≠ o) }).opsOf c =
          ctx.opsOf c := by
      rw [opsOf, readBlock_modifyBlock]
      split
      · rename_i hc
        obtain ⟨row, hrow⟩ := hasBlock_iff.1 hb
        rw [hc, opsOf, readBlock_of_block hrow, readBlock_of_block hrow, Function.comp,
          List.filter_eq_self]
        intro p hp
        rw [decide_eq_true_eq]
        rintro rfl
        exact hmem ((h.coherent.ops.owner_iff p b).2 (by rwa [opsOf, readBlock_of_block hrow]))
      · rfl
    refine ⟨hin.coherent h.coherent (h.coherent.ops.congr (fun _ => rfl) hops)
      ⟨h.coherent.uses.mem_iff, h.coherent.uses.nodup⟩, h.grounded.mono fun p q hq => ?_⟩
    rwa [hin.above rfl] at hq

/-- An attribute shows in no reading of an operation that does not look at attributes. -/
theorem readOp_setAttribute {α : Type} (f : Operation → α) (default : α)
    (hf : ∀ (row : Operation) attributes, f { row with attributes := attributes } = f row)
    (o : OpRef) (key : String) (a : Attribute) :
    (ctx.setAttribute o key a).readOp f default = ctx.readOp f default := by
  funext p
  rw [Context.setAttribute, readOp_modifyOp, show (f ∘ fun operation : Operation =>
    { operation with attributes := operation.attributes.set key a }) = f from
      funext fun row => hf row _, ite_self]

theorem op_setAttribute (o : OpRef) (key : String) (a : Attribute) (p : OpRef) :
    (ctx.setAttribute o key a).op p = (ctx.op p).map fun row =>
      if p = o then { row with attributes := row.attributes.set key a } else row := by
  rw [op, setAttribute, modifyOp, Array.getElem?_modify, op]
  by_cases hp : p = o
  · subst hp
    rw [if_pos rfl]
    cases ctx.ops[p.index]? with
    | none => rfl
    | some row => exact congrArg Except.ok (if_pos rfl).symm
  · rw [if_neg fun heq => hp (OpRef.index_inj.1 heq.symm)]
    cases ctx.ops[p.index]? with
    | none => rfl
    | some row => exact congrArg Except.ok (if_neg hp).symm

theorem hasOp_setAttribute (o : OpRef) (key : String) (a : Attribute) {p : OpRef} :
    (ctx.setAttribute o key a).HasOp p ↔ ctx.HasOp p := by
  rw [HasOp, HasOp, setAttribute, modifyOp, Array.size_modify]

theorem blockOf_setAttribute (o : OpRef) (key : String) (a : Attribute) :
    (ctx.setAttribute o key a).blockOf = ctx.blockOf :=
  readOp_setAttribute _ _ (fun _ _ => rfl) o key a

theorem Coherent.setAttribute (hc : ctx.Coherent) (o : OpRef) (key : String) (a : Attribute) :
    (ctx.setAttribute o key a).Coherent := by
  have hresults : (ctx.setAttribute o key a).results = ctx.results := by
    rw [results_eq_readOp, results_eq_readOp]
    exact readOp_setAttribute _ _ (fun _ _ => rfl) o key a
  refine ⟨hc.ops.congr (congrFun (blockOf_setAttribute o key a)) fun _ => rfl,
    hc.blocks.congr (fun _ => rfl) fun _ => rfl,
    hc.regions.congr (fun _ => rfl)
      (congrFun (readOp_setAttribute (·.regions) [] (fun _ _ => rfl) o key a)),
    ⟨fun v u => ?_, hc.uses.nodup⟩, ⟨fun p n v => ?_, hc.values.argument_iff, fun p => ?_,
    hc.values.args_length⟩⟩
  · rw [heldBy, readOp_setAttribute _ _ fun _ _ => rfl]
    exact hc.uses.mem_iff v u
  · rw [hresults]
    exact hc.values.result_iff p n v
  · rw [hresults, readOp_setAttribute _ _ fun _ _ => rfl]
    exact hc.values.results_length p

theorem above_setAttribute (o : OpRef) (key : String) (a : Attribute) :
    (ctx.setAttribute o key a).above = ctx.above := by
  funext p
  rw [above, blockOf_setAttribute]
  rfl

theorem Sound.setAttribute (h : ctx.Sound) (o : OpRef) (key : String) (a : Attribute) :
    (ctx.setAttribute o key a).Sound := by
  refine ⟨h.coherent.setAttribute o key a, h.grounded.mono fun p q hq => ?_⟩
  rwa [above_setAttribute] at hq

theorem Step.sound (h : ctx.Sound) (hstep : ctx.Step ctx') : ctx'.Sound := by
  cases hstep with
  | createOp run => exact h.createOp run
  | createBlock free nodup run => exact h.createBlock free nodup run
  | createRegion run => exact h.createRegion run
  | pushOp outside run => exact h.put (pushOp_put h.coherent run) outside
  | insertOpAt outside run => exact h.put (insertOpAt_put h.coherent run) outside
  | insertOpBefore outside run =>
    obtain ⟨_, -, run⟩ := insertOpBefore_eq_ok.1 run
    exact h.put (insertOpAt_put h.coherent run) outside
  | moveOpBefore outside run =>
    obtain ⟨b, _, _, hb, -, -, hput⟩ := moveOpBefore_put h.coherent run
    refine h.put hput fun t ht => outside t ?_
    rw [above, hb]
    exact ht
  | detachOp run =>
    obtain ⟨-, rfl⟩ := (detachOp_eq_ok h.coherent).1 run
    exact h.detached _
  | removeOpFromBlock run => exact h.removeOpFromBlock run
  | eraseOp run =>
    obtain ⟨-, -, _, -, -, -, hm⟩ := h.coherent.eraseOp_spec run
    exact h.marked hm
  | @replaceAllUses old new _ run =>
    by_cases hne : old = new
    · rw [Context.replaceAllUses, if_pos hne] at run
      exact Outcome.pure_eq_ok.1 run ▸ h
    · obtain ⟨_, run', hw⟩ := h.coherent.replaceAllUses hne
      exact Except.ok.inj (run'.symm.trans run) ▸ h.rewired hne hw
  | cloneOp run => exact (h.cloneOp_spec run).2.sound
  | internType node => exact h.intern (ctx.types.intern node).1 ctx.paths ctx.symbols
  | internPath path => exact h.intern ctx.types (ctx.paths.intern path).1 ctx.symbols
  | internSymbols names => exact h.intern ctx.types ctx.paths (ctx.internSymbols names).symbols
  | setAttribute o key a => exact h.setAttribute o key a

/-- Every reachable context is sound. -/
theorem Reachable.sound (h : ctx.Reachable) : ctx.Sound := by
  induction h with
  | refl => exact sound_empty
  | tail _ hstep ih => exact hstep.sound ih

/-! ## What soundness says about the tables -/

/-- A value stands at a place among the results of an operation or the arguments of
    a block. -/
def Defines (ctx : Context) : ValueDef → ValueRef → Prop
  | .result o n, v => (ctx.results o)[n]? = some v
  | .argument b n, v => (ctx.args b)[n]? = some v

/-- The tables of a context agree with each other, in all that they tell twice. -/
structure Consistent (ctx : Context) : Prop where
  /-- A live operation has a value in a slot iff the chain of the value has that
      slot. -/
  uses_iff : ∀ o, ctx.HasOp o → ctx.isErased o = false → ∀ i v,
    (ctx.operandsOf o)[i]? = some v ↔ ⟨o, i⟩ ∈ ctx.uses.get v
  uses_once : ∀ v u, u ∈ ctx.uses.get v → (ctx.uses.get v).count u = 1
  uses_live : ∀ v u, u ∈ ctx.uses.get v → ctx.HasOp u.user ∧ ctx.isErased u.user = false
  /-- An operation records a block iff the block lists it. -/
  ops_iff : ∀ o b, ctx.blockOf o = some b ↔ o ∈ ctx.opsOf b
  ops_once : ∀ o b, o ∈ ctx.opsOf b → (ctx.opsOf b).count o = 1 ∧ ∀ c, o ∈ ctx.opsOf c → c = b
  /-- A block records a region iff the region lists it. -/
  blocks_iff : ∀ b r, ctx.regionOf b = some r ↔ b ∈ ctx.blocksOf r
  blocks_once : ∀ b r, b ∈ ctx.blocksOf r →
    (ctx.blocksOf r).count b = 1 ∧ ∀ s, b ∈ ctx.blocksOf s → s = r
  /-- A region records an operation iff the operation lists it. -/
  regions_iff : ∀ r o, ctx.ownerOf r = some o ↔ r ∈ ctx.regionsOf o
  regions_once : ∀ r o, r ∈ ctx.regionsOf o →
    (ctx.regionsOf o).count r = 1 ∧ ∀ p, r ∈ ctx.regionsOf p → p = o
  /-- A value records the place at which it stands. -/
  source : ∀ d v, ctx.Defines d v → ∃ row, ctx.value v = .ok row ∧ row.source = d
  /-- No value stands at two places. -/
  distinct : ∀ d e v, ctx.Defines d v → ctx.Defines e v → d = e

theorem linked_once {χ π : Type} [DecidableEq χ] {owner : χ → Option π}
    {listed : π → List χ} (h : Linked owner listed) {c : χ} {p : π} (hc : c ∈ listed p) :
    (listed p).count c = 1 ∧ ∀ q, c ∈ listed q → q = p :=
  ⟨List.count_eq_one_of_mem (h.nodup p) hc, fun _ hq => h.owner_unique hq hc⟩

theorem Coherent.sourceOf_of_defines (h : ctx.Coherent) {d : ValueDef} {v : ValueRef}
    (hv : ctx.Defines d v) : ctx.sourceOf v = some d := by
  cases d with
  | result o n => exact (h.values.result_iff o n v).1 hv
  | argument b n => exact (h.values.argument_iff b n v).1 hv

theorem Coherent.consistent (h : ctx.Coherent) : ctx.Consistent where
  uses_iff o _ hlive i v := by
    rw [h.uses.mem_iff, heldBy_eq, hlive]
    rfl
  uses_once v u hu := List.count_eq_one_of_mem (h.uses.nodup v) hu
  uses_live v u hu := by
    refine ⟨h.hasOp_of_use hu, ?_⟩
    rw [h.uses.mem_iff, heldBy_eq] at hu
    split at hu
    · cases hu
    · rename_i hlive
      simpa using hlive
  ops_iff := h.ops.owner_iff
  ops_once _ _ := linked_once h.ops
  blocks_iff := h.blocks.owner_iff
  blocks_once _ _ := linked_once h.blocks
  regions_iff := h.regions.owner_iff
  regions_once _ _ := linked_once h.regions
  source d v hv := by
    obtain ⟨row, hrow, hsource⟩ := Option.map_eq_some_iff.1 (h.sourceOf_of_defines hv)
    exact ⟨row, value_eq_ok.2 hrow, hsource⟩
  distinct _ _ _ hd he :=
    Option.some.inj ((h.sourceOf_of_defines hd).symm.trans (h.sourceOf_of_defines he))

/-- The tables of every reachable context agree with each other. -/
theorem consistent_of_reachable (h : ctx.Reachable) : ctx.Consistent := h.sound.coherent.consistent

/-- A value and its user are made and put into a block one after the other; the user
    is taken out of the block again, and erased. -/
theorem consistent_after_erasing : ∃ ctx : Context, ctx.Reachable ∧
    (ctx.opsOf ⟨0⟩ = [⟨0⟩] ∧ ctx.isErased ⟨1⟩ = true ∧ ctx.uses.get ⟨0⟩ = []) ∧
    ctx.Consistent := by
  let define : Blueprint := ⟨default, ⟨"test", "def"⟩, [], [⟨0⟩], .empty, []⟩
  let use : Blueprint := ⟨default, ⟨"test", "use"⟩, [⟨0⟩, ⟨0⟩], [], .empty, []⟩
  let ctx₁ := (empty.addOp define).1
  let ctx₂ := (ctx₁.addBlock default [] [⟨0⟩]).1
  let ctx₃ := (ctx₂.addOp use).1
  let ctx₄ := ctx₃.append ⟨0⟩ ⟨1⟩
  let ctx₅ := ctx₄.relist ⟨1⟩ none ⟨0⟩ (·.filter (· ≠ ⟨1⟩))
  have run₁ : empty.createOp define = .ok (ctx₁, ⟨0⟩) := rfl
  have run₂ : ctx₁.createBlock default [] [⟨0⟩] = .ok (ctx₂, ⟨0⟩) := rfl
  have run₃ : ctx₂.createOp use = .ok (ctx₃, ⟨1⟩) := rfl
  have run₄ : ctx₃.pushOp ⟨0⟩ ⟨1⟩ = .ok ctx₄ := rfl
  have run₅ : ctx₄.detachOp ⟨1⟩ = .ok ctx₅ := rfl
  have hreach : ctx₅.Reachable :=
    ((((Relation.ReflTransGen.single (.createOp run₁)).tail
      (.createBlock (by decide) (by decide) run₂)).tail (.createOp run₃)).tail
      (.pushOp (fun t ht => by cases ht) run₄)).tail (.detachOp run₅)
  have htree : ctx₅.subtree ⟨1⟩ = .ok [⟨1⟩] := rfl
  obtain ⟨ctx₆, run₆⟩ := hreach.sound.coherent.eraseOp_ok (by decide) rfl htree (by decide)
    fun o ho v hv => by
      rw [List.mem_singleton.1 ho] at hv
      cases hv
  obtain ⟨-, -, tree, htree', -, -, hm⟩ := hreach.sound.coherent.eraseOp_spec run₆
  obtain rfl : [⟨1⟩] = tree := Except.ok.inj (htree.symm.trans htree')
  refine ⟨ctx₆, hreach.tail (.eraseOp run₆), ⟨congrFun hm.opsOf ⟨0⟩, ?_, ?_⟩,
    consistent_of_reachable (hreach.tail (.eraseOp run₆))⟩
  · exact (hm.erased ⟨1⟩).2 (.inl List.mem_cons_self)
  · rw [hm.uses]
    decide +kernel

end Offload.Context
