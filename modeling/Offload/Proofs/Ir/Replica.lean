import Offload.Proofs.Ir.Cloning
import Offload.Proofs.Ir.Mirror

/-!
# Replicas

A *replica* of an operation is a tree of new rows that differ from the rows of its tree in
nothing but handles: values are renamed, and owners are those of the new tree (`Replica`). A
clone is one if whatever is defined in the tree is in scope where it is used there
(`LocatedCopy.replica`). It is all that is new, the map ends up with the values of the tree for
keys, and what was there before has new uses at most, those in the clone (`Duplicates`,
`Sound.cloneOp_duplicates`).
-/

namespace Offload

open Context

/-! ## What a replica is -/

section Replica

variable (source : Context) (σ : ValueRef → ValueRef) (ctx : Context)

/-- A new block whose row is that of another one, but for handles. What it is for operations
    is given. -/
structure BlockReplica (replica : OpRef → OpRef → Prop) (b b' : BlockRef) : Prop where
  isNew : ¬source.HasBlock b'
  row : ∃ row ops parent, source.block b = .ok row ∧
    ctx.block b' = .ok { row with args := row.args.map σ, ops, parent } ∧
    List.Forall₂ replica row.ops ops

/-- A new region whose row is that of another one, but for handles. -/
structure RegionReplica (replica : OpRef → OpRef → Prop) (r r' : RegionRef) : Prop where
  isNew : ¬source.HasRegion r'
  row : ∃ row blocks parent, source.region r = .ok row ∧
    ctx.region r' = .ok { row with blocks, parent } ∧
    List.Forall₂ (BlockReplica source σ ctx replica) row.blocks blocks

/-- A new operation whose row is that of another one, but for handles. Its values, and all in
    what is nested in it, are renamed. Operations are nested at most `n` deep. -/
def Replica : (n : Nat) → OpRef → OpRef → Prop
  | 0, _, _ => False
  | n + 1, o, o' => ¬source.HasOp o' ∧ ∃ row regions parent, source.op o = .ok row ∧
      ctx.op o' = .ok { row with
        operands := row.operands.map σ, results := row.results.map σ, regions, parent,
        erased := false } ∧
      List.Forall₂ (RegionReplica source σ ctx (Replica n)) row.regions regions

end Replica

section

variable {source ctx : Context} {top : OpRef} {σ : ValueRef → ValueRef} {n : Nat}

theorem BlockCopy.replica {copyOf located replica : OpRef → OpRef → Prop} {b b' : BlockRef}
    (hb : source.HasBlock b) (hcopy : BlockCopy source σ ctx copyOf b b')
    (hlocated : BlockLocated source ctx located b b')
    (hops : ∀ o ∈ source.opsOf b, ∀ o', copyOf o o' → located o o' → replica o o') :
    BlockReplica source σ ctx replica b b' := by
  obtain ⟨row, hrow⟩ := hasBlock_iff.1 hb
  obtain ⟨row', hrow'⟩ := hasBlock_iff.1 hcopy.hasBlock
  have hreplicas : List.Forall₂ replica (source.opsOf b) (ctx.opsOf b') :=
    (Position.forall₂_mem (hcopy.ops.mp (fun _ _ => And.intro) hlocated.ops)).imp
      fun o o' ⟨ho, _, h, h'⟩ => hops o ho o' h h'
  have htypes := hcopy.types
  have hargs := hcopy.args
  have hlocation := hlocated.location
  simp only [args_eq_readBlock, readBlock_of_block hrow, readBlock_of_block hrow']
    at hreplicas htypes hargs hlocation
  refine ⟨hcopy.isNew, row, row'.ops, row'.parent, hrow, ?_, hreplicas⟩
  rw [hrow', ← htypes, ← hargs, ← hlocation]

theorem RegionCopy.replica {copyOf located replica : OpRef → OpRef → Prop} {r r' : RegionRef}
    (hr : source.HasRegion r) (hcopy : RegionCopy source σ ctx copyOf r r')
    (hlocated : RegionLocated source ctx located r r')
    (hblocks : ∀ b ∈ source.blocksOf r, ∀ b', BlockCopy source σ ctx copyOf b b' →
      BlockLocated source ctx located b b' → BlockReplica source σ ctx replica b b') :
    RegionReplica source σ ctx replica r r' := by
  obtain ⟨row, hrow⟩ := hasRegion_iff.1 hr
  obtain ⟨row', hrow'⟩ := hasRegion_iff.1 hcopy.hasRegion
  have hreplicas : List.Forall₂ (BlockReplica source σ ctx replica) (source.blocksOf r)
      (ctx.blocksOf r') :=
    (Position.forall₂_mem (hcopy.blocks.mp (fun _ _ => And.intro) hlocated.blocks)).imp
      fun b b' ⟨hb, _, h, h'⟩ => hblocks b hb b' h h'
  have hlocation := hlocated.location
  simp only [readRegion_of_region hrow, readRegion_of_region hrow'] at hreplicas hlocation
  refine ⟨hcopy.isNew, row, row'.blocks, row'.parent, hrow, ?_, hreplicas⟩
  rw [hrow', ← hlocation]

/-- A copy is a replica if what is used in the tree can be seen from there. -/
theorem LocatedCopy.replica (hsource : source.Coherent)
    (hvisible : ∀ p, source.Within p top → ∀ v ∈ source.operandsOf p, Visible source top p v)
    {o o' : OpRef} (ho : source.Within o top) (hex : source.HasOp o)
    (h : LocatedCopy source top σ ctx n o o') : Replica source σ ctx n o o' := by
  induction n generalizing o o' with
  | zero => exact h.1
  | succ n ih =>
    obtain ⟨⟨hop, hcopies⟩, hlocation, hlocated⟩ := h
    obtain ⟨row, hrow⟩ := hasOp_iff.1 hex
    obtain ⟨row', hrow'⟩ := hasOp_iff.1 hop.hasOp
    have hreplicas : List.Forall₂ (RegionReplica source σ ctx (Replica source σ ctx n))
        (source.regionsOf o) (ctx.regionsOf o') := by
      refine (Position.forall₂_mem (hcopies.mp (fun _ _ => And.intro) hlocated)).imp
        fun r r' ⟨hr, _, h, h'⟩ => h.replica (hsource.hasRegion_of_mem hr) h' fun b hb b' h h' => ?_
      refine h.replica (hsource.hasBlock_of_mem hb) h' fun p hp p' h h' => ?_
      have habove := (hsource.above_of_mem hp).trans (hsource.holder_of_mem hr hb)
      exact ih ((within_of_above habove).trans ho) (hsource.hasOp_of_mem hp) ⟨h, h'⟩
    have hkind := hop.kind
    have hattributes := hop.attributes
    have htypes := hop.types
    have hresults := hop.results
    have hlive := hop.live
    have hoperands := hop.operands (hvisible o ho)
    simp only [kindOf, attributesOf, results_eq_readOp, isErased_eq_readOp, readOp_of_op hrow,
      readOp_of_op hrow'] at hreplicas hkind hattributes htypes hresults hlive hoperands hlocation
    refine ⟨hop.isNew, row, row'.regions, row'.parent, hrow, ?_, hreplicas⟩
    rw [hrow', ← hkind, ← hattributes, ← htypes, ← hresults, ← hlive, ← hoperands, ← hlocation]

end

namespace Context

variable {ctx ctx' : Context} {o copy : OpRef} {map map' : ValueMap}

/-! ## Uses in a copy -/

/-- The uses that there were come first in every chain. -/
def UsesKept (ctx ctx' : Context) : Prop := ∀ v, ctx.uses.get v <+: ctx'.uses.get v

theorem frame_usesKept : Clone.Frame UsesKept where
  refl _ _ := List.prefix_rfl
  trans h₁ h₂ v := (h₁ v).trans (h₂ v)
  addBlock _ _ _ v := by rw [uses_addBlock]
  append _ _ _ _ := List.prefix_rfl
  addRegion _ _ _ v := by rw [uses_addRegion]
  addOp _ _ v := by
    rw [uses_addOp, get_addUses]
    exact List.prefix_append _ _

namespace Cloned

variable (hc : ctx.Coherent) (h : ctx.Cloned o map ctx' map' copy)

include hc h

/-- What is in the tree of the copy mirrors something in the tree. -/
theorem exists_source {p' : OpRef} (hp : ctx'.Within p' copy) :
    ∃ p, ctx.Within p o ∧ OpCopy ctx o map'.apply ctx' p p' := by
  obtain ⟨_, p, hw, hcopy, -⟩ := h.copyOf.exists_mirror hc h.sound.coherent
    (P := fun _ _ => True) trivial (fun _ _ _ _ _ _ _ _ _ => trivial) hp
  exact ⟨p, hw, hcopy.1⟩

/-- The tree of the copy is all that is new. -/
theorem within_copy_iff {p : OpRef} : ctx'.Within p copy ↔ ctx'.HasOp p ∧ ¬ctx.HasOp p := by
  constructor
  · intro hp
    obtain ⟨q, -, hq⟩ := h.exists_source hc hp
    exact ⟨hq.hasOp, hq.isNew⟩
  · rintro ⟨hp, hn⟩
    exact h.only p hp hn

/-- A slot of an operation in the copy is in the chain of what it holds. -/
theorem mem_uses_of_within {u : Use} (hu : ctx'.Within u.user copy) (v : ValueRef) :
    u ∈ ctx'.uses.get v ↔ (ctx'.operandsOf u.user)[u.slot]? = some v := by
  obtain ⟨p, -, hp⟩ := h.exists_source hc hu
  rw [h.sound.coherent.uses.mem_iff, heldBy_eq, hp.live, if_neg Bool.false_ne_true]

/-- A use that there was not is one in the copy. -/
theorem within_of_mem_uses {u : Use} {v : ValueRef} (hu : u ∈ ctx'.uses.get v)
    (hn : u ∉ ctx.uses.get v) : ctx'.Within u.user copy := by
  refine h.only _ (h.sound.coherent.hasOp_of_use hu) fun hex => hn ?_
  rw [h.sound.coherent.uses.mem_iff] at hu
  rwa [hc.uses.mem_iff, heldBy, ← h.extends.readOp hex]

end Cloned

/-- The chain of a value gets the slots of the copy that hold it, each once. -/
theorem Sound.cloneOp_uses (h : ctx.Sound) (hrun : ctx.cloneOp o map = .ok (ctx', map', copy))
    (v : ValueRef) :
    ∃ added, ctx'.uses.get v = ctx.uses.get v ++ added ∧ added.Nodup ∧
      ∀ u, u ∈ added ↔ ctx'.Within u.user copy ∧ (ctx'.operandsOf u.user)[u.slot]? = some v := by
  obtain ⟨-, hcloned⟩ := h.cloneOp_spec hrun
  obtain ⟨added, hadded⟩ := frame_usesKept.cloneOp hrun v
  have hnodup := hcloned.sound.coherent.uses.nodup v
  rw [← hadded, List.nodup_append] at hnodup
  have hmem (u : Use) : u ∈ ctx'.uses.get v ↔ u ∈ ctx.uses.get v ∨ u ∈ added := by
    rw [← hadded, List.mem_append]
  refine ⟨added, hadded.symm, hnodup.2.1, fun u => ⟨fun hu => ?_, fun ⟨hw, hu⟩ => ?_⟩⟩
  · have hu' := (hmem u).2 (.inr hu)
    have hw := hcloned.within_of_mem_uses h.coherent hu' fun hold =>
      hnodup.2.2 u hold u hu rfl
    exact ⟨hw, (hcloned.mem_uses_of_within h.coherent hw v).1 hu'⟩
  · have hu' := (hcloned.mem_uses_of_within h.coherent hw v).2 hu
    refine ((hmem u).1 hu').resolve_left fun hold => ?_
    exact ((hcloned.within_copy_iff h.coherent).1 hw).2 (h.coherent.hasOp_of_use hold)

/-! ## Duplicates -/

/-- Whatever is defined in the tree of an operation is in scope where it is used there. -/
def Scoped (ctx : Context) (o : OpRef) : Prop :=
  ∀ p, ctx.Within p o → ∀ v ∈ ctx.operandsOf p, ctx.DefinedWithin o v → ctx.InScope p v

theorem Scoped.visible (hs : ctx.Scoped o) (h : ctx.Coherent) {p : OpRef} (hp : ctx.Within p o)
    {v : ValueRef} (hv : v ∈ ctx.operandsOf p) : Visible ctx o p v := by
  by_cases hd : ctx.DefinedWithin o v
  · exact .inl (h.earlier_of_inScope (hs p hp v hv hd))
  · exact .inr hd

/-- An operation is duplicated: there is a free replica of it, which is all that is new. The
    map takes what is defined in the tree, and nothing else, to fresh values. The rows from
    before stay, and the use chains get the slots of the replica at their ends. -/
structure Duplicates (ctx : Context) (o : OpRef) (ctx' : Context) (map : ValueMap)
    (copy : OpRef) : Prop where
  detached : ctx'.blockOf copy = none
  replica : Replica ctx map.apply ctx' (ctx.ops.size + 1) o copy
  tree : ∀ p, ctx'.Within p copy ↔ ctx'.HasOp p ∧ ¬ctx.HasOp p
  defined : ∀ w, ctx'.DefinedWithin copy w ↔ ∃ v, ctx.DefinedWithin o v ∧ map.apply v = w
  fresh : ∀ v, ctx.DefinedWithin o v → ctx.values.size ≤ (map.apply v).index
  shared : ∀ v, ¬ctx.DefinedWithin o v → map.apply v = v
  keys : ∀ v, v ∈ map.keys ↔ ctx.DefinedWithin o v
  injective : ∀ v w, v ∈ map.keys → w ∈ map.keys → map.apply v = map.apply w → v = w
  «extends» : ctx.Extends ctx'
  types : ctx'.types = ctx.types
  paths : ctx'.paths = ctx.paths
  uses : ∀ v, ∃ added, ctx'.uses.get v = ctx.uses.get v ++ added ∧ added.Nodup ∧
    ∀ u, u ∈ added ↔ ctx'.Within u.user copy ∧ (ctx'.operandsOf u.user)[u.slot]? = some v
  own : ∀ v, ctx.DefinedWithin o v → ctx'.uses.get v = ctx.uses.get v
  sound : ctx'.Sound

/-- A clone, made with a map that was empty, duplicates an operation. -/
theorem Sound.cloneOp_duplicates (h : ctx.Sound) (hs : ctx.Scoped o)
    (hrun : ctx.cloneOp o .empty = .ok (ctx', map, copy)) : ctx.Duplicates o ctx' map copy := by
  have hc := h.coherent
  obtain ⟨ho, -, -, hcopied, -, -, hcopy⟩ := h.cloneOp_achieves hrun
  obtain ⟨-, hcloned⟩ := h.cloneOp_spec hrun
  have hkeys (v : ValueRef) : v ∈ map.keys ↔ ctx.DefinedWithin o v :=
    (hcopied.keys v).trans (or_iff_left List.not_mem_nil)
  have hvisible (p : OpRef) (hp : ctx.Within p o) (v : ValueRef) (hv : v ∈ ctx.operandsOf p) :
      Visible ctx o p v := hs.visible hc hp hv
  refine ⟨hcloned.free, hcopy.replica hc hvisible (.refl o) ho,
    fun p => hcloned.within_copy_iff hc,
    fun w => hcloned.copyOf.definedWithin_iff hc hcloned.sound.coherent,
    fun v hv => (hcloned.fresh v hv).1, hcloned.outside, hkeys,
    fun v w hv hw => hcloned.injective v w ((hkeys v).1 hv) ((hkeys w).1 hw),
    hcloned.extends, hcloned.types, hcloned.paths, h.cloneOp_uses hrun, fun v hv => ?_,
    hcloned.sound⟩
  obtain ⟨added, hadded, -, hmem⟩ := h.cloneOp_uses hrun v
  rw [hadded, List.append_right_eq_self, List.eq_nil_iff_forall_not_mem]
  intro u hu
  -- the copy holds fresh values, and such as are not defined in the tree
  obtain ⟨hw, hu⟩ := (hmem u).1 hu
  obtain ⟨p, hp, hop⟩ := hcloned.exists_source hc hw
  rw [hop.operands (hvisible p hp)] at hu
  obtain ⟨w, hw, rfl⟩ := List.mem_map.1 (List.mem_of_getElem? hu)
  by_cases hd : ctx.DefinedWithin o w
  · have := (hcloned.fresh w hd).1
    have := index_lt_of_definedWithin hv
    omega
  · have hshared : map.apply w = w := hcloned.outside w hd
    exact hd (hshared ▸ hv)

end Context

end Offload
