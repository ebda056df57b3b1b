import Offload.Proofs.Source.Build

/-!
# The order in which programs are built

Building allocates operations from the inside out and from the left to the right, so that
a tree is numbered in post-order (`Spans`): first what is nested in an operation, one
after the other, and then the operation. The use chains have the users in this order
(`Chained`), since an operation is recorded as a user when it is allocated.
-/

namespace Offload

open Context

/-! ## Use chains -/

/-- A use comes before another one: its user was allocated earlier, or it is in an earlier slot
    of the same user. -/
def Use.Before (u u' : Use) : Prop :=
  u.user.index < u'.user.index ∨ u.user = u'.user ∧ u.slot < u'.slot

namespace Context

/-- The use chains have the uses in the order in which they were allocated. -/
structure Chained (ctx : Context) : Prop where
  sorted : ∀ v, (ctx.uses.get v).Pairwise Use.Before
  hasUser : ∀ v, ∀ u ∈ ctx.uses.get v, ctx.HasOp u.user

/-- The values have the types that are given where they are defined. -/
structure Typed (ctx : Context) : Prop where
  result : ∀ v row o n, ctx.value v = .ok row → row.source = .result o n →
    (ctx.resultTypesOf o)[n]? = some row.type
  argument : ∀ v row b n, ctx.value v = .ok row → row.source = .argument b n →
    (ctx.argTypesOf b)[n]? = some row.type

variable {ctx : Context}

theorem chained_empty : empty.Chained :=
  ⟨fun _ => .nil, fun _ _ hu => absurd hu List.not_mem_nil⟩

theorem typed_empty : empty.Typed :=
  ⟨fun v row o n hrow _ => (by rw [value_eq_ok] at hrow; cases hrow),
    fun v row b n hrow _ => (by rw [value_eq_ok] at hrow; cases hrow)⟩

theorem Chained.addOp (h : ctx.Chained) (blueprint : Blueprint) :
    (ctx.addOp blueprint).1.Chained := by
  have hsize : (ctx.addOp blueprint).1.ops.size = ctx.ops.size + 1 := by
    simp only [Context.addOp, foldl_modifyRegion, addValues, Array.size_push]
  refine ⟨fun v => ?_, fun v u hu => ?_⟩
  · rw [uses_addOp, get_addUses, List.pairwise_append, List.pairwise_map]
    refine ⟨h.sorted v, ?_, fun u hu u' hu' => ?_⟩
    · have hslots : (blueprint.operands.zipIdx 0).Pairwise fun x y => x.2 < y.2 := by
        rw [← List.pairwise_map (f := Prod.snd), List.zipIdx_map_snd]
        exact List.pairwise_lt_range'
      exact (hslots.filter _).imp fun hlt => .inr ⟨rfl, hlt⟩
    · obtain ⟨x, -, rfl⟩ := List.mem_map.1 hu'
      exact .inl (h.hasUser v u hu)
  · rw [uses_addOp, get_addUses, List.mem_append] at hu
    rw [HasOp, hsize]
    rcases hu with hu | hu
    · exact Nat.lt_succ_of_lt (h.hasUser v u hu)
    · obtain ⟨x, -, rfl⟩ := List.mem_map.1 hu
      exact Nat.lt_succ_self _

theorem value_addValues_cases {source : Nat → ValueDef} {types : List TypeRef} {v : ValueRef}
    {row : Value} (h : (ctx.addValues source types).value v = .ok row) :
    ctx.value v = .ok row ∨ ∃ k t, types[k]? = some t ∧ row = ⟨source k, t⟩ := by
  rw [value_eq_ok, addValues, Array.getElem?_append] at h
  split at h
  · exact .inl (value_eq_ok.2 h)
  · simp only [List.getElem?_toArray, List.getElem?_map, List.getElem?_zipIdx,
      Option.map_eq_some_iff] at h
    obtain ⟨_, ⟨t, ht, rfl⟩, rfl⟩ := h
    exact .inr ⟨_, t, ht, by simp⟩

namespace Typed

theorem addOp (h : ctx.Typed) (blueprint : Blueprint) : (ctx.addOp blueprint).1.Typed := by
  have hcases {v : ValueRef} {row : Value} (hrow : (ctx.addOp blueprint).1.value v = .ok row) :
      ctx.value v = .ok row ∨ ∃ k t, blueprint.resultTypes[k]? = some t ∧
        row = ⟨.result ⟨ctx.ops.size⟩ k, t⟩ := by
    have hnew : (ctx.addValues (.result ⟨ctx.ops.size⟩) blueprint.resultTypes).value v = .ok row := by
      rw [← hrow]
      simp only [Context.addOp, foldl_modifyRegion, addValues, value]
    exact value_addValues_cases hnew
  refine ⟨fun v row o n hrow hsource => ?_, fun v row b n hrow hsource => ?_⟩
  · rw [resultTypesOf, readOp_addOp]
    rcases hcases hrow with hold | ⟨k, t, ht, rfl⟩
    · have hv := h.result v row o n hold hsource
      rw [if_neg]
      · exact hv
      · rintro rfl
        rw [resultTypesOf, readOp_of_not_hasOp not_hasOp_size] at hv
        cases hv
    · obtain ⟨rfl, rfl⟩ := ValueDef.result.inj hsource
      rw [if_pos rfl]
      exact ht
  · rw [argTypesOf, readBlock_addOp]
    rcases hcases hrow with hold | ⟨k, t, ht, rfl⟩
    · exact h.argument v row b n hold hsource
    · cases hsource

theorem addBlock (h : ctx.Typed) (location : Location) (argTypes : List TypeRef)
    {ops : List OpRef} : (ctx.addBlock location argTypes ops).1.Typed := by
  have hcases {v : ValueRef} {row : Value}
      (hrow : (ctx.addBlock location argTypes ops).1.value v = .ok row) :
      ctx.value v = .ok row ∨ ∃ k t, argTypes[k]? = some t ∧
        row = ⟨.argument ⟨ctx.blocks.size⟩ k, t⟩ := by
    have hnew : (ctx.addValues (.argument ⟨ctx.blocks.size⟩) argTypes).value v = .ok row := by
      rw [← hrow]
      simp only [Context.addBlock, foldl_modifyOp, addValues, value]
    exact value_addValues_cases hnew
  refine ⟨fun v row o n hrow hsource => ?_, fun v row b n hrow hsource => ?_⟩
  · rw [resultTypesOf, readOp_addBlock]
    rcases hcases hrow with hold | ⟨k, t, ht, rfl⟩
    · split <;> exact h.result v row o n hold hsource
    · cases hsource
  · rw [argTypesOf, readBlock_addBlock]
    rcases hcases hrow with hold | ⟨k, t, ht, rfl⟩
    · have hv := h.argument v row b n hold hsource
      rw [if_neg]
      · exact hv
      · rintro rfl
        rw [argTypesOf, readBlock_of_not_hasBlock not_hasBlock_size] at hv
        cases hv
    · obtain ⟨rfl, rfl⟩ := ValueDef.argument.inj hsource
      rw [if_pos rfl]
      exact ht

/-- Who owns what has no part in it. -/
theorem congr {ctx' : Context} (h : ctx.Typed) (hvalues : ctx'.values = ctx.values)
    (hresults : ctx'.resultTypesOf = ctx.resultTypesOf) (hargs : ctx'.argTypesOf = ctx.argTypesOf) :
    ctx'.Typed := by
  have hvalue : ctx'.value = ctx.value := by
    funext v
    rw [value, value, hvalues]
  exact ⟨fun v row o n hrow => hresults ▸ h.result v row o n (hvalue ▸ hrow),
    fun v row b n hrow => hargs ▸ h.argument v row b n (hvalue ▸ hrow)⟩

theorem addRegion (h : ctx.Typed) (location : Location) (blocks : List BlockRef) :
    (ctx.addRegion location blocks).1.Typed := by
  refine h.congr (by simp only [Context.addRegion, foldl_modifyBlock]) ?_ ?_
  · funext o
    rw [resultTypesOf, readOp_addRegion]
  · funext b
    rw [argTypesOf, readBlock_addRegion]
    split <;> rfl

theorem append (h : ctx.Typed) (b : BlockRef) (o : OpRef) : (ctx.append b o).Typed := by
  refine h.congr rfl ?_ ?_
  · funext q
    rw [resultTypesOf, Context.append, readOp_modifyBlock, readOp_modifyOp]
    split <;> rfl
  · funext c
    rw [argTypesOf, Context.append, readBlock_modifyBlock]
    split <;> rfl

end Typed

end Context

/-! ## Post-order -/

namespace Context

/-- Some operations, with what is nested in them, have the numbers from one on up to, but
    not including, another one: first what is in the first operation, then that operation, and
    so on. -/
inductive Spans (ctx : Context) : Nat → List OpRef → Nat → Prop
  | nil {n : Nat} : Spans ctx n [] n
  | cons {start stop : Nat} {o : OpRef} {os : List OpRef}
    (inside : Spans ctx start (ctx.childrenOf o) o.index) (rest : Spans ctx (o.index + 1) os stop) :
    Spans ctx start (o :: os) stop

namespace Spans

variable {ctx ctx' : Context} {start middle stop : Nat} {os os' : List OpRef}

theorem append (h : ctx.Spans start os middle) (h' : ctx.Spans middle os' stop) :
    ctx.Spans start (os ++ os') stop := by
  induction h with
  | nil => exact h'
  | cons inside _ _ ih => exact .cons inside (ih h')

theorem split (h : ctx.Spans start (os ++ os') stop) :
    ∃ middle, ctx.Spans start os middle ∧ ctx.Spans middle os' stop := by
  induction os generalizing start with
  | nil => exact ⟨start, .nil, h⟩
  | cons o os ih =>
    cases h with
    | cons inside rest =>
      obtain ⟨middle, hos, hos'⟩ := ih rest
      exact ⟨middle, .cons inside hos, hos'⟩

/-- The numbers stay while nothing is put into the operations. -/
theorem congr (h : ctx.Spans start os stop) (hc : ctx.Coherent)
    (hchildren : ∀ o, ctx.HasOp o → ctx'.childrenOf o = ctx.childrenOf o)
    (hos : ∀ o ∈ os, ctx.HasOp o) : ctx'.Spans start os stop := by
  induction h with
  | nil => exact .nil
  | @cons _ _ o _ _ _ ih ihrest =>
    rw [List.forall_mem_cons] at hos
    refine .cons ?_ (ihrest hos.2)
    rw [hchildren o hos.1]
    exact ih fun c hm => (hc.hasOp_of_above (hc.mem_childrenOf.1 hm)).1

end Spans

variable {ctx ctx' : Context}

theorem Extends.childrenOf (h : ctx.Extends ctx') (hc : ctx.Coherent) {o : OpRef}
    (ho : ctx.HasOp o) : ctx'.childrenOf o = ctx.childrenOf o := by
  rw [Context.childrenOf, Context.childrenOf, regionsOf, h.readOp ho]
  refine List.flatMap_congr fun r hr => ?_
  rw [blocksOf, h.readRegion (hc.hasRegion_of_mem hr)]
  refine List.flatMap_congr fun b hb => ?_
  rw [opsOf, h.readBlock (hc.hasBlock_of_mem hb)]

/-- An operation that is put into a block without an owner is put into no operation. -/
theorem childrenOf_append (hc : ctx.Coherent) {b : BlockRef} (hfree : ctx.regionOf b = none)
    (o q : OpRef) : (ctx.append b o).childrenOf q = ctx.childrenOf q := by
  have hregions : (ctx.append b o).regionsOf q = ctx.regionsOf q := by
    rw [regionsOf, append, readOp_modifyBlock, readOp_modifyOp]
    split <;> rfl
  rw [childrenOf, childrenOf, hregions]
  refine List.flatMap_congr fun r hr => List.flatMap_congr fun c hcm => ?_
  rw [opsOf, append, readBlock_modifyBlock, if_neg]
  · rfl
  · rintro rfl
    rw [(hc.blocks.owner_iff c r).2 hcm] at hfree
    cases hfree

theorem childrenOf_addOp {blueprint : Blueprint} {q : OpRef} (hq : ctx.HasOp q) :
    (ctx.addOp blueprint).1.childrenOf q = ctx.childrenOf q := by
  rw [childrenOf, childrenOf, regionsOf, readOp_addOp, if_neg]
  · refine List.flatMap_congr fun r _ => ?_
    rw [blocksOf, readRegion_addOp, ite_self]
    exact List.flatMap_congr fun b _ => readBlock_addOp _ _ b
  · rintro rfl
    exact not_hasOp_size hq

theorem childrenOf_addRegion (hc : ctx.Coherent) (location : Location) (blocks : List BlockRef)
    (q : OpRef) : (ctx.addRegion location blocks).1.childrenOf q = ctx.childrenOf q := by
  rw [childrenOf, childrenOf, regionsOf, readOp_addRegion]
  refine List.flatMap_congr fun r hr => ?_
  rw [blocksOf, readRegion_addRegion, if_neg]
  · refine List.flatMap_congr fun b _ => ?_
    rw [opsOf, readBlock_addRegion, ite_self]
  · rintro rfl
    exact not_hasRegion_size (hc.hasRegion_of_mem hr)

end Context

namespace Build

/-- The operations in some blocks. -/
abbrev listed (ctx : Context) (bs : List BlockRef) : List OpRef := bs.flatMap ctx.opsOf

theorem Interned.ops_size {ctx ctx' : Context} (h : Interned ctx ctx') :
    ctx'.ops.size = ctx.ops.size := by
  rw [h]

theorem ops_size_addOp {ctx : Context} (blueprint : Blueprint) :
    (ctx.addOp blueprint).1.ops.size = ctx.ops.size + 1 := by
  simp only [addOp, foldl_modifyRegion, addValues, Array.size_push]

theorem ops_size_addRegion {ctx : Context} (location : Location) (blocks : List BlockRef) :
    (ctx.addRegion location blocks).1.ops.size = ctx.ops.size := by
  simp only [addRegion, foldl_modifyBlock]

theorem ops_size_append {ctx : Context} (b : BlockRef) (o : OpRef) :
    (ctx.append b o).ops.size = ctx.ops.size := by
  simp only [append, modifyBlock, modifyOp, Array.size_modify]

theorem hasOp_of_mem_listed {ctx : Context} (hc : ctx.Coherent) {bs : List BlockRef} :
    ∀ o ∈ listed ctx bs, ctx.HasOp o := fun o ho => by
  obtain ⟨b, -, hb⟩ := List.mem_flatMap.1 ho
  exact hc.hasOp_of_mem hb

/-- Blocks that are there list the same operations later. -/
theorem listed_extends {ctx ctx' : Context} (h : ctx.Extends ctx') {bs : List BlockRef}
    (hbs : ∀ b ∈ bs, ctx.HasBlock b) : listed ctx' bs = listed ctx bs :=
  List.flatMap_congr fun b hb => h.readBlock (hbs b hb) _ _

mutual

/-- An operation that is built gets the number after those of what is nested in it. -/
theorem op_spans : ∀ (term : OpTerm) (s : Builder) (o : OpRef) (s' : Builder), s.context.Sound →
    Runs (op term) s o s' → s'.context.Spans s.context.ops.size [o] s'.context.ops.size
  | .mk head terms, s, o, s', hs, hrun => by
    obtain ⟨ctx₁, blueprint, rs, s₂, hi, hregions, rfl, rfl, hs'⟩ := op_runs hrun
    have h₁ := Built.interned hs hi
    have hspans := regions_spans _ terms _ _ s₂ h₁.sound hregions
    obtain ⟨h₂, -, -⟩ := regions_spec _ terms _ _ s₂ h₁.sound hregions
    have hc := h₂.sound.coherent
    rw [hs', ops_size_addOp]
    refine .cons (o := ⟨s₂.context.ops.size⟩) ?_ .nil
    have hchildren : (s₂.context.addOp blueprint).1.childrenOf ⟨s₂.context.ops.size⟩ =
        blueprint.regions.flatMap fun r => listed s₂.context (s₂.context.blocksOf r) := by
      rw [childrenOf, regionsOf, readOp_addOp, if_pos rfl]
      refine List.flatMap_congr fun r _ => ?_
      rw [blocksOf, readRegion_addOp, ite_self]
      exact List.flatMap_congr fun b _ => readBlock_addOp _ _ b
    rw [hchildren, ← hi.ops_size]
    refine hspans.congr hc (fun q hq => childrenOf_addOp hq) fun q hq => ?_
    obtain ⟨r, -, hr⟩ := List.mem_flatMap.1 hq
    exact hasOp_of_mem_listed hc q hr

theorem regions_spans : ∀ (location : Location) (terms : List RegionTerm) (s : Builder)
    (rs : List RegionRef) (s' : Builder), s.context.Sound → Runs (regions location terms) s rs s' →
      s'.context.Spans s.context.ops.size
        (rs.flatMap fun r => listed s'.context (s'.context.blocksOf r)) s'.context.ops.size
  | location, [], s, rs, s', hs, hrun => by
    rw [regions] at hrun
    obtain ⟨rfl, rfl⟩ := runs_pure.1 hrun
    exact .nil
  | location, .mk terms :: rest, s, rs, s', hs, hrun => by
    obtain ⟨bs, s₁, rs', hblocks, hrest, rfl⟩ := regions_cons_runs hrun
    have hspans := blocks_spans location terms s bs s₁ hs hblocks
    obtain ⟨h₁, hmade, hnodup⟩ := blocks_spec location terms s bs s₁ hs hblocks
    have h₂ := h₁.addRegion hmade hnodup location
    have hrests := regions_spans location rest _ rs' s' h₂.sound hrest
    obtain ⟨h₃, -, -⟩ := regions_spec location rest _ rs' s' h₂.sound hrest
    rw [ops_size_addRegion] at hrests
    rw [List.flatMap_cons]
    refine Spans.append ?_ hrests
    have hregion : s'.context.blocksOf ⟨s₁.context.regions.size⟩ = bs := by
      rw [blocksOf, h₃.extends.readRegion]
      · rw [readRegion_addRegion, if_pos rfl]
      · exact hasRegion_iff.2 ⟨⟨location, bs, none⟩, by
          rw [region_iff_readRegion, readRegion_addRegion, if_pos rfl]⟩
    have hlisted : listed (s₁.context.addRegion location bs).1 bs = listed s₁.context bs := by
      refine List.flatMap_congr fun b _ => ?_
      rw [opsOf, readBlock_addRegion, ite_self]
    have hhas (b : BlockRef) (hb : b ∈ bs) : (s₁.context.addRegion location bs).1.HasBlock b := by
      obtain ⟨row, hrow⟩ := hasBlock_iff.1 (hmade b hb).2.1
      refine hasBlock_iff.2 ⟨{ row with parent := some ⟨s₁.context.regions.size⟩ }, ?_⟩
      rw [block_iff_readBlock, readBlock_addRegion, if_pos hb, readBlock_of_block hrow]
    rw [hregion, listed_extends h₃.extends hhas, hlisted]
    have hc := h₁.sound.coherent
    refine (hspans.congr hc (fun q _ => childrenOf_addRegion hc location bs q)
      (hasOp_of_mem_listed hc)).congr h₂.sound.coherent
        (fun q hq => h₃.extends.childrenOf h₂.sound.coherent hq) ?_
    rw [← hlisted]
    exact hasOp_of_mem_listed h₂.sound.coherent

theorem blocks_spans : ∀ (location : Location) (terms : List BlockTerm) (s : Builder)
    (bs : List BlockRef) (s' : Builder), s.context.Sound → Runs (blocks location terms) s bs s' →
      s'.context.Spans s.context.ops.size (listed s'.context bs) s'.context.ops.size
  | location, [], s, bs, s', hs, hrun => by
    rw [blocks] at hrun
    obtain ⟨rfl, rfl⟩ := runs_pure.1 hrun
    exact .nil
  | location, .mk label terms :: rest, s, bs, s', hs, hrun => by
    obtain ⟨ctx₁, argTypes, names, s₂, bs', hi, hops, hrest, rfl⟩ := blocks_cons_runs hrun
    have h₁ := Built.interned hs hi
    have h₂ := Built.addBlock h₁.sound location argTypes
    have hrow : (ctx₁.addBlock location argTypes []).1.block ⟨ctx₁.blocks.size⟩ =
        .ok ⟨location, argTypes, ctx₁.nextValues argTypes.length, [], none⟩ := by
      rw [block_iff_readBlock, readBlock_addBlock, if_pos rfl]
    have hhas := hasBlock_iff.2 ⟨_, hrow⟩
    have hfree : (ctx₁.addBlock location argTypes []).1.regionOf ⟨ctx₁.blocks.size⟩ = none :=
      readBlock_of_block hrow _ _
    have hfilled := ops_spec _ terms _ () s₂ h₂.sound hhas hfree hops
    have hstart : (ctx₁.addBlock location argTypes []).1.Spans s.context.ops.size
        ((ctx₁.addBlock location argTypes []).1.opsOf ⟨ctx₁.blocks.size⟩)
        (ctx₁.addBlock location argTypes []).1.ops.size := by
      rw [opsOf, readBlock_of_block hrow, ← hi.ops_size]
      exact .nil
    have hspans := ops_spans _ terms _ () s₂ h₂.sound hhas hfree hstart hops
    obtain ⟨h₃, -, -⟩ := blocks_spec location rest s₂ bs' s' hfilled.sound hrest
    have hrests := blocks_spans location rest s₂ bs' s' hfilled.sound hrest
    have hc := hfilled.sound.coherent
    rw [listed, List.flatMap_cons, opsOf, h₃.extends.readBlock hfilled.hasBlock]
    exact (hspans.congr hc (fun q hq => h₃.extends.childrenOf hc hq)
      fun q hq => hc.hasOp_of_mem hq).append hrests

theorem ops_spans : ∀ (b : BlockRef) (terms : List OpTerm) (s : Builder) (u : Unit)
    (s' : Builder) {start : Nat}, s.context.Sound → s.context.HasBlock b →
      s.context.regionOf b = none →
      s.context.Spans start (s.context.opsOf b) s.context.ops.size → Runs (ops b terms) s u s' →
      s'.context.Spans start (s'.context.opsOf b) s'.context.ops.size
  | b, [], s, u, s', start, hs, hb, hfree, hspans, hrun => by
    rw [ops] at hrun
    obtain ⟨-, rfl⟩ := runs_pure.1 hrun
    exact hspans
  | b, term :: rest, s, u, s', start, hs, hb, hfree, hspans, hrun => by
    obtain ⟨o, s₁, ho, hrest⟩ := ops_cons_runs hrun
    obtain ⟨h₁, hmade⟩ := op_spec term s o s₁ hs ho
    have hop := op_spans term s o s₁ hs ho
    have h₂ := Filled.append h₁ hmade hb hfree
    have hc := h₁.sound.coherent
    have hfree₁ : s₁.context.regionOf b = none := (h₁.extends.readBlock hb _ _).trans hfree
    refine ops_spans b rest { s₁ with context := s₁.context.append b o } () s' h₂.sound
      h₂.hasBlock h₂.free ?_ hrest
    obtain ⟨row, hrow⟩ := hasBlock_iff.1 (h₁.extends.hasBlock hb)
    have hops : (s₁.context.append b o).opsOf b = s.context.opsOf b ++ [o] := by
      have hold : s.context.opsOf b = row.ops := by
        rw [← readBlock_of_block hrow (·.ops) []]
        exact (h₁.extends.readBlock hb _ _).symm
      rw [hold, opsOf, append, readBlock_modifyBlock, if_pos rfl]
      exact readBlock_of_block hrow _ _
    rw [hops]
    have hold := hspans.congr hs.coherent (fun q hq => h₁.extends.childrenOf hs.coherent hq)
      fun q hq => hs.coherent.hasOp_of_mem hq
    rw [ops_size_append]
    refine (hold.append hop).congr hc (fun q _ => childrenOf_append hc hfree₁ o q) fun q hq => ?_
    rcases List.mem_append.1 hq with hq | hq
    · exact h₁.extends.hasOp (hs.coherent.hasOp_of_mem hq)
    · rw [List.mem_singleton.1 hq]
      exact hmade.2.1

end

/-! ## What every step keeps -/

/-- A property that every step of building keeps. -/
structure Keeps (P : Context → Prop) : Prop where
  interned : ∀ {ctx ctx'}, Interned ctx ctx' → P ctx → P ctx'
  addBlock : ∀ {ctx} location argTypes, P ctx → P (ctx.addBlock location argTypes []).1
  addRegion : ∀ {ctx} location blocks, P ctx → P (ctx.addRegion location blocks).1
  addOp : ∀ {ctx} blueprint, P ctx → P (ctx.addOp blueprint).1
  append : ∀ {ctx} b o, P ctx → P (ctx.append b o)

namespace Keeps

variable {P : Context → Prop} (hP : Keeps P)

include hP

mutual

theorem op : ∀ (term : OpTerm) (s : Builder) (o : OpRef) (s' : Builder),
    P s.context → Runs (Build.op term) s o s' → P s'.context
  | .mk head terms, s, o, s', h, hrun => by
    obtain ⟨ctx₁, blueprint, rs, s₂, hi, hregions, rfl, rfl, hs'⟩ := op_runs hrun
    rw [hs']
    exact hP.addOp blueprint (regions _ terms _ _ s₂ (hP.interned hi h) hregions)

theorem regions : ∀ (location : Location) (terms : List RegionTerm) (s : Builder)
    (rs : List RegionRef) (s' : Builder), P s.context →
      Runs (Build.regions location terms) s rs s' → P s'.context
  | location, [], s, rs, s', h, hrun => by
    rw [Build.regions] at hrun
    obtain ⟨rfl, rfl⟩ := runs_pure.1 hrun
    exact h
  | location, .mk terms :: rest, s, rs, s', h, hrun => by
    obtain ⟨bs, s₁, rs', hblocks, hrest, rfl⟩ := regions_cons_runs hrun
    exact regions location rest _ rs' s'
      (hP.addRegion location bs (blocks location terms s bs s₁ h hblocks)) hrest

theorem blocks : ∀ (location : Location) (terms : List BlockTerm) (s : Builder)
    (bs : List BlockRef) (s' : Builder), P s.context →
      Runs (Build.blocks location terms) s bs s' → P s'.context
  | location, [], s, bs, s', h, hrun => by
    rw [Build.blocks] at hrun
    obtain ⟨rfl, rfl⟩ := runs_pure.1 hrun
    exact h
  | location, .mk label terms :: rest, s, bs, s', h, hrun => by
    obtain ⟨ctx₁, argTypes, names, s₂, bs', hi, hops, hrest, rfl⟩ := blocks_cons_runs hrun
    exact blocks location rest s₂ bs' s'
      (ops _ terms _ () s₂ (hP.addBlock location argTypes (hP.interned hi h)) hops) hrest

theorem ops : ∀ (b : BlockRef) (terms : List OpTerm) (s : Builder) (u : Unit) (s' : Builder),
    P s.context → Runs (Build.ops b terms) s u s' → P s'.context
  | b, [], s, u, s', h, hrun => by
    rw [Build.ops] at hrun
    obtain ⟨-, rfl⟩ := runs_pure.1 hrun
    exact h
  | b, term :: rest, s, u, s', h, hrun => by
    obtain ⟨o, s₁, ho, hrest⟩ := ops_cons_runs hrun
    exact ops b rest _ () s' (hP.append b o (op term s o s₁ h ho)) hrest

end

end Keeps

theorem keeps_chained : Keeps Chained where
  interned hi h := by
    rw [hi]
    exact ⟨h.sorted, h.hasUser⟩
  addBlock location argTypes h := by
    refine ⟨fun v => ?_, fun v u hu => ?_⟩
    · rw [uses_addBlock]
      exact h.sorted v
    · rw [uses_addBlock] at hu
      exact extends_addBlock.hasOp (h.hasUser v u hu)
  addRegion location blocks h := by
    refine ⟨fun v => ?_, fun v u hu => ?_⟩
    · rw [uses_addRegion]
      exact h.sorted v
    · rw [uses_addRegion] at hu
      rw [HasOp, ops_size_addRegion]
      exact h.hasUser v u hu
  addOp blueprint h := h.addOp blueprint
  append b o h := by
    refine ⟨h.sorted, fun v u hu => ?_⟩
    rw [HasOp, ops_size_append]
    exact h.hasUser v u hu

theorem keeps_typed : Keeps Typed where
  interned hi h := by
    rw [hi]
    exact ⟨h.result, h.argument⟩
  addBlock location argTypes h := h.addBlock location argTypes
  addRegion location blocks h := h.addRegion location blocks
  addOp blueprint h := h.addOp blueprint
  append b o h := h.append b o

/-! ## Programs that were read -/

/-- What a program that was read looks like, before anything is changed. -/
structure Fresh (root : OpRef) (ctx : Context) : Prop where
  chained : ctx.Chained
  typed : ctx.Typed
  spans : ∃ start stop, ctx.Spans start [root] stop

theorem read_fresh {path text : String} {root : OpRef} {ctx : Context}
    (hread : Context.empty.read path text = (.ok root, ctx)) : Fresh root ctx := by
  obtain ⟨term, s, -, hrun, rfl⟩ := read_eq_ok.1 hread
  have hi := interned_internPath Context.empty path
  exact ⟨keeps_chained.op term _ root s (keeps_chained.interned hi chained_empty) hrun,
    keeps_typed.op term _ root s (keeps_typed.interned hi typed_empty) hrun,
    _, _, op_spans term _ root s (built_start sound_empty path).sound hrun⟩

end Build

end Offload
