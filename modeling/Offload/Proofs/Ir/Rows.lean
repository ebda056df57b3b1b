import Mathlib.Data.List.Basic
import Offload.Ir.Clone
import Offload.Proofs.Outcome

/-!
# Rows of the tables

A context is changed by replacing rows of its tables, and by adding rows at
their ends. The statements here say what is read after a change. They are about
*readings*: a function of the row that a handle names, or a default if it names
none. What the links and the use chains are about are readings — the operands of
an operation, the block that it records, the operations that a block lists — so
these statements suffice to follow them through any change, and no look-up needs
to be shown to succeed first.
-/

namespace Offload

theorem OpRef.index_inj {o p : OpRef} : o.index = p.index ↔ o = p := by
  cases o; cases p; simp

theorem ValueRef.index_inj {v w : ValueRef} : v.index = w.index ↔ v = w := by
  cases v; cases w; simp

theorem BlockRef.index_inj {b c : BlockRef} : b.index = c.index ↔ b = c := by
  cases b; cases c; simp

theorem RegionRef.index_inj {r s : RegionRef} : r.index = s.index ↔ r = s := by
  cases r; cases s; simp

theorem TypeRef.index_inj {s t : TypeRef} : s.index = t.index ↔ s = t := by
  cases s; cases t; simp

namespace Context

variable {α : Type} (ctx : Context)

/-! ## Readings -/

/-- What `f` reads off the row of an operation. -/
def readOp (f : Operation → α) (default : α) (o : OpRef) : α :=
  (ctx.ops[o.index]?.map f).getD default

/-- What `f` reads off the row of a block. -/
def readBlock (f : Block → α) (default : α) (b : BlockRef) : α :=
  (ctx.blocks[b.index]?.map f).getD default

/-- What `f` reads off the row of a region. -/
def readRegion (f : Region → α) (default : α) (r : RegionRef) : α :=
  (ctx.regions[r.index]?.map f).getD default

/-- The block that an operation records as its owner. -/
abbrev blockOf : OpRef → Option BlockRef := ctx.readOp (·.parent) none

/-- The region that a block records as its owner. -/
abbrev regionOf : BlockRef → Option RegionRef := ctx.readBlock (·.parent) none

/-- The operation that a region records as its owner. -/
abbrev ownerOf : RegionRef → Option OpRef := ctx.readRegion (·.parent) none

/-- The operations that a block lists. -/
abbrev opsOf : BlockRef → List OpRef := ctx.readBlock (·.ops) []

/-- The blocks that a region lists. -/
abbrev blocksOf : RegionRef → List BlockRef := ctx.readRegion (·.blocks) []

/-- The regions that an operation lists. -/
abbrev regionsOf : OpRef → List RegionRef := ctx.readOp (·.regions) []

/-- The operands of an operation. -/
abbrev operandsOf : OpRef → List ValueRef := ctx.readOp (·.operands) []

/-- The operands that an operation holds: none, once it has been erased. -/
abbrev heldBy : OpRef → List ValueRef :=
  ctx.readOp (fun operation => if operation.erased then [] else operation.operands) []

/-- The types of the results of an operation. -/
abbrev resultTypesOf : OpRef → List TypeRef := ctx.readOp (·.resultTypes) []

/-- The types of the arguments of a block. -/
abbrev argTypesOf : BlockRef → List TypeRef := ctx.readBlock (·.argTypes) []

/-- Where a value comes from. -/
def sourceOf (v : ValueRef) : Option ValueDef := ctx.values[v.index]?.map Value.source

variable {ctx}

/-! ## Look-ups -/

theorem op_eq_ok {o : OpRef} {row : Operation} :
    ctx.op o = .ok row ↔ ctx.ops[o.index]? = some row := found_eq_ok_iff

theorem block_eq_ok {b : BlockRef} {row : Block} :
    ctx.block b = .ok row ↔ ctx.blocks[b.index]? = some row := found_eq_ok_iff

theorem region_eq_ok {r : RegionRef} {row : Region} :
    ctx.region r = .ok row ↔ ctx.regions[r.index]? = some row := found_eq_ok_iff

theorem value_eq_ok {v : ValueRef} {row : Value} :
    ctx.value v = .ok row ↔ ctx.values[v.index]? = some row := found_eq_ok_iff

theorem type_eq_ok {t : TypeRef} {node : TypeNode} :
    ctx.type t = .ok node ↔ ctx.types.rows[t.index]? = some node := found_eq_ok_iff

theorem path_eq_ok {p : PathRef} {text : String} :
    ctx.path p = .ok text ↔ ctx.paths.rows[p.index]? = some text := found_eq_ok_iff

theorem readOp_of_op {o : OpRef} {row : Operation} (h : ctx.op o = .ok row)
    (f : Operation → α) (default : α) : ctx.readOp f default o = f row := by
  rw [readOp, op_eq_ok.1 h]; rfl

theorem readBlock_of_block {b : BlockRef} {row : Block} (h : ctx.block b = .ok row)
    (f : Block → α) (default : α) : ctx.readBlock f default b = f row := by
  rw [readBlock, block_eq_ok.1 h]; rfl

theorem readRegion_of_region {r : RegionRef} {row : Region} (h : ctx.region r = .ok row)
    (f : Region → α) (default : α) : ctx.readRegion f default r = f row := by
  rw [readRegion, region_eq_ok.1 h]; rfl

theorem op_iff_readOp {o : OpRef} {row : Operation} :
    ctx.op o = .ok row ↔ ctx.readOp some none o = some row := by
  rw [op_eq_ok, readOp]
  cases ctx.ops[o.index]? <;> simp

theorem block_iff_readBlock {b : BlockRef} {row : Block} :
    ctx.block b = .ok row ↔ ctx.readBlock some none b = some row := by
  rw [block_eq_ok, readBlock]
  cases ctx.blocks[b.index]? <;> simp

theorem region_iff_readRegion {r : RegionRef} {row : Region} :
    ctx.region r = .ok row ↔ ctx.readRegion some none r = some row := by
  rw [region_eq_ok, readRegion]
  cases ctx.regions[r.index]? <;> simp

theorem results_eq_readOp : ctx.results = ctx.readOp (·.results) [] := by
  funext o
  rw [results, readOp]
  cases ctx.ops[o.index]? <;> rfl

theorem args_eq_readBlock : ctx.args = ctx.readBlock (·.args) [] := by
  funext b
  rw [args, readBlock]
  cases ctx.blocks[b.index]? <;> rfl

theorem isErased_eq_readOp : ctx.isErased = ctx.readOp (·.erased) false := by
  funext o
  rw [isErased, readOp]
  cases ctx.ops[o.index]? <;> rfl

/-- A handle that names an operation. -/
def HasOp (ctx : Context) (o : OpRef) : Prop := o.index < ctx.ops.size

/-- A handle that names a block. -/
def HasBlock (ctx : Context) (b : BlockRef) : Prop := b.index < ctx.blocks.size

/-- A handle that names a region. -/
def HasRegion (ctx : Context) (r : RegionRef) : Prop := r.index < ctx.regions.size

instance (ctx : Context) (o : OpRef) : Decidable (ctx.HasOp o) := Nat.decLt _ _

instance (ctx : Context) (b : BlockRef) : Decidable (ctx.HasBlock b) := Nat.decLt _ _

instance (ctx : Context) (r : RegionRef) : Decidable (ctx.HasRegion r) := Nat.decLt _ _

theorem hasOp_iff {o : OpRef} : ctx.HasOp o ↔ ∃ row, ctx.op o = .ok row := by
  simp only [op_eq_ok, HasOp, Array.getElem?_eq_some_iff]
  exact ⟨fun h => ⟨_, h, rfl⟩, fun ⟨_, h, _⟩ => h⟩

theorem hasBlock_iff {b : BlockRef} : ctx.HasBlock b ↔ ∃ row, ctx.block b = .ok row := by
  simp only [block_eq_ok, HasBlock, Array.getElem?_eq_some_iff]
  exact ⟨fun h => ⟨_, h, rfl⟩, fun ⟨_, h, _⟩ => h⟩

theorem hasRegion_iff {r : RegionRef} : ctx.HasRegion r ↔ ∃ row, ctx.region r = .ok row := by
  simp only [region_eq_ok, HasRegion, Array.getElem?_eq_some_iff]
  exact ⟨fun h => ⟨_, h, rfl⟩, fun ⟨_, h, _⟩ => h⟩

theorem readOp_of_not_hasOp {o : OpRef} (h : ¬ctx.HasOp o) (f : Operation → α) (default : α) :
    ctx.readOp f default o = default := by
  rw [readOp, Array.getElem?_eq_none (Nat.not_lt.1 h)]; rfl

theorem readBlock_of_not_hasBlock {b : BlockRef} (h : ¬ctx.HasBlock b) (f : Block → α)
    (default : α) : ctx.readBlock f default b = default := by
  rw [readBlock, Array.getElem?_eq_none (Nat.not_lt.1 h)]; rfl

theorem readRegion_of_not_hasRegion {r : RegionRef} (h : ¬ctx.HasRegion r) (f : Region → α)
    (default : α) : ctx.readRegion f default r = default := by
  rw [readRegion, Array.getElem?_eq_none (Nat.not_lt.1 h)]; rfl

/-! ## Rows replaced -/

section Modify

variable {o p : OpRef} {b c : BlockRef} {r s : RegionRef}

theorem readOp_modifyOp (f : Operation → α) (default : α) (g : Operation → Operation) :
    (ctx.modifyOp o g).readOp f default p =
      if p = o then ctx.readOp (f ∘ g) default p else ctx.readOp f default p := by
  simp only [readOp, modifyOp, Array.getElem?_modify, OpRef.index_inj, eq_comm (a := o)]
  split
  · rw [Option.map_map]
  · rfl

@[simp]
theorem readBlock_modifyOp (f : Block → α) (default : α) (g : Operation → Operation) :
    (ctx.modifyOp o g).readBlock f default b = ctx.readBlock f default b := rfl

theorem readBlock_modifyBlock (f : Block → α) (default : α) (g : Block → Block) :
    (ctx.modifyBlock b g).readBlock f default c =
      if c = b then ctx.readBlock (f ∘ g) default c else ctx.readBlock f default c := by
  simp only [readBlock, modifyBlock, Array.getElem?_modify, BlockRef.index_inj, eq_comm (a := b)]
  split
  · rw [Option.map_map]
  · rfl

@[simp]
theorem readOp_modifyBlock (f : Operation → α) (default : α) (g : Block → Block) :
    (ctx.modifyBlock b g).readOp f default o = ctx.readOp f default o := rfl

theorem readRegion_modifyRegion (f : Region → α) (default : α) (g : Region → Region) :
    (ctx.modifyRegion r g).readRegion f default s =
      if s = r then ctx.readRegion (f ∘ g) default s else ctx.readRegion f default s := by
  simp only [readRegion, modifyRegion, Array.getElem?_modify, RegionRef.index_inj,
    eq_comm (a := r)]
  split
  · rw [Option.map_map]
  · rfl

/-- Many rows replaced, in a way that makes no difference when it is repeated. -/
theorem readOp_foldl_modifyOp (f : Operation → α) (default : α) {g : Operation → Operation}
    (hg : ∀ row, g (g row) = g row) (os : List OpRef) (ctx : Context) :
    (os.foldl (fun ctx o => ctx.modifyOp o g) ctx).readOp f default p =
      if p ∈ os then ctx.readOp (f ∘ g) default p else ctx.readOp f default p := by
  induction os generalizing ctx with
  | nil => rfl
  | cons o os ih =>
    rw [List.foldl_cons, ih, readOp_modifyOp, readOp_modifyOp, Function.comp_assoc,
      show g ∘ g = g from funext hg]
    by_cases h : p = o <;> simp [h]

theorem readBlock_foldl_modifyBlock (f : Block → α) (default : α) {g : Block → Block}
    (hg : ∀ row, g (g row) = g row) (bs : List BlockRef) (ctx : Context) :
    (bs.foldl (fun ctx b => ctx.modifyBlock b g) ctx).readBlock f default c =
      if c ∈ bs then ctx.readBlock (f ∘ g) default c else ctx.readBlock f default c := by
  induction bs generalizing ctx with
  | nil => rfl
  | cons b bs ih =>
    rw [List.foldl_cons, ih, readBlock_modifyBlock, readBlock_modifyBlock, Function.comp_assoc,
      show g ∘ g = g from funext hg]
    by_cases h : c = b <;> simp [h]

theorem readRegion_foldl_modifyRegion (f : Region → α) (default : α) {g : Region → Region}
    (hg : ∀ row, g (g row) = g row) (rs : List RegionRef) (ctx : Context) :
    (rs.foldl (fun ctx r => ctx.modifyRegion r g) ctx).readRegion f default s =
      if s ∈ rs then ctx.readRegion (f ∘ g) default s else ctx.readRegion f default s := by
  induction rs generalizing ctx with
  | nil => rfl
  | cons r rs ih =>
    rw [List.foldl_cons, ih, readRegion_modifyRegion, readRegion_modifyRegion,
      Function.comp_assoc, show g ∘ g = g from funext hg]
    by_cases h : s = r <;> simp [h]

end Modify

theorem foldl_modifyOp (g : Operation → Operation) (os : List OpRef) (ctx : Context) :
    os.foldl (fun ctx o => ctx.modifyOp o g) ctx =
      { ctx with ops := os.foldl (fun ops o => ops.modify o.index g) ctx.ops } := by
  induction os generalizing ctx with
  | nil => rfl
  | cons o os ih => rw [List.foldl_cons, ih]; rfl

theorem foldl_modifyBlock (g : Block → Block) (bs : List BlockRef) (ctx : Context) :
    bs.foldl (fun ctx b => ctx.modifyBlock b g) ctx =
      { ctx with blocks := bs.foldl (fun blocks b => blocks.modify b.index g) ctx.blocks } := by
  induction bs generalizing ctx with
  | nil => rfl
  | cons b bs ih => rw [List.foldl_cons, ih]; rfl

theorem foldl_modifyRegion (g : Region → Region) (rs : List RegionRef) (ctx : Context) :
    rs.foldl (fun ctx r => ctx.modifyRegion r g) ctx =
      { ctx with regions := rs.foldl (fun regions r => regions.modify r.index g) ctx.regions } := by
  induction rs generalizing ctx with
  | nil => rfl
  | cons r rs ih => rw [List.foldl_cons, ih]; rfl

/-! ## Rows added -/

/-- The row of an operation that is made next. -/
def freshRow (ctx : Context) (blueprint : Blueprint) : Operation :=
  { blueprint with
    results := ctx.nextValues blueprint.resultTypes.length
    parent := none
    erased := false }

section Add

variable {blueprint : Blueprint} {location : Location} {argTypes : List TypeRef}
  {ops : List OpRef} {blocks : List BlockRef}

theorem addOp_snd : (ctx.addOp blueprint).2 = ⟨ctx.ops.size⟩ := rfl

theorem readOp_addOp (f : Operation → α) (default : α) (o : OpRef) :
    (ctx.addOp blueprint).1.readOp f default o =
      if o = ⟨ctx.ops.size⟩ then f (ctx.freshRow blueprint) else ctx.readOp f default o := by
  simp only [addOp, foldl_modifyRegion, addValues, readOp, Array.getElem?_push,
    ← OpRef.index_inj]
  split <;> rfl

theorem readBlock_addOp (f : Block → α) (default : α) (b : BlockRef) :
    (ctx.addOp blueprint).1.readBlock f default b = ctx.readBlock f default b := by
  simp only [addOp, foldl_modifyRegion, addValues, readBlock]

/-- A new operation owns its regions, and nothing else has changed about them. -/
theorem readRegion_addOp (f : Region → α) (default : α) (r : RegionRef) :
    (ctx.addOp blueprint).1.readRegion f default r =
      if r ∈ blueprint.regions then
        ctx.readRegion (fun row => f { row with parent := some ⟨ctx.ops.size⟩ }) default r
      else ctx.readRegion f default r := by
  refine Eq.trans ?_ (readRegion_foldl_modifyRegion f default
    (g := fun row => { row with parent := some ⟨ctx.ops.size⟩ }) (fun _ => rfl) blueprint.regions ctx)
  simp only [addOp, foldl_modifyRegion, addValues, readRegion]

theorem size_values_addOp : (ctx.addOp blueprint).1.values.size =
    ctx.values.size + blueprint.resultTypes.length := by
  simp [addOp, foldl_modifyRegion, addValues]

theorem uses_addOp : (ctx.addOp blueprint).1.uses =
    addUses ctx.uses ⟨ctx.ops.size⟩ 0 blueprint.operands := by
  simp only [addOp, foldl_modifyRegion, addValues]

theorem addBlock_snd : (ctx.addBlock location argTypes ops).2 = ⟨ctx.blocks.size⟩ := rfl

/-- A new block owns its operations, and nothing else has changed about them. -/
theorem readOp_addBlock (f : Operation → α) (default : α) (o : OpRef) :
    (ctx.addBlock location argTypes ops).1.readOp f default o =
      if o ∈ ops then
        ctx.readOp (fun row => f { row with parent := some ⟨ctx.blocks.size⟩ }) default o
      else ctx.readOp f default o := by
  refine Eq.trans ?_ (readOp_foldl_modifyOp f default
    (g := fun row => { row with parent := some ⟨ctx.blocks.size⟩ }) (fun _ => rfl) ops ctx)
  simp only [addBlock, foldl_modifyOp, addValues, readOp]

theorem readBlock_addBlock (f : Block → α) (default : α) (b : BlockRef) :
    (ctx.addBlock location argTypes ops).1.readBlock f default b =
      if b = ⟨ctx.blocks.size⟩ then
        f ⟨location, argTypes, ctx.nextValues argTypes.length, ops, none⟩
      else ctx.readBlock f default b := by
  simp only [addBlock, foldl_modifyOp, addValues, readBlock, Array.getElem?_push,
    ← BlockRef.index_inj]
  split <;> rfl

theorem readRegion_addBlock (f : Region → α) (default : α) (r : RegionRef) :
    (ctx.addBlock location argTypes ops).1.readRegion f default r =
      ctx.readRegion f default r := by
  simp only [addBlock, foldl_modifyOp, addValues, readRegion]

theorem size_values_addBlock : (ctx.addBlock location argTypes ops).1.values.size =
    ctx.values.size + argTypes.length := by
  simp [addBlock, foldl_modifyOp, addValues]

theorem uses_addBlock : (ctx.addBlock location argTypes ops).1.uses = ctx.uses := by
  simp only [addBlock, foldl_modifyOp, addValues]

theorem readOp_addRegion (f : Operation → α) (default : α) (o : OpRef) :
    (ctx.addRegion location blocks).1.readOp f default o = ctx.readOp f default o := by
  simp only [addRegion, foldl_modifyBlock, readOp]

/-- A new region owns its blocks, and nothing else has changed about them. -/
theorem readBlock_addRegion (f : Block → α) (default : α) (b : BlockRef) :
    (ctx.addRegion location blocks).1.readBlock f default b =
      if b ∈ blocks then
        ctx.readBlock (fun row => f { row with parent := some ⟨ctx.regions.size⟩ }) default b
      else ctx.readBlock f default b := by
  refine Eq.trans ?_ (readBlock_foldl_modifyBlock f default
    (g := fun row => { row with parent := some ⟨ctx.regions.size⟩ }) (fun _ => rfl) blocks ctx)
  simp only [addRegion, foldl_modifyBlock, readBlock]

theorem readRegion_addRegion (f : Region → α) (default : α) (r : RegionRef) :
    (ctx.addRegion location blocks).1.readRegion f default r =
      if r = ⟨ctx.regions.size⟩ then f ⟨location, blocks, none⟩
      else ctx.readRegion f default r := by
  simp only [addRegion, foldl_modifyBlock, readRegion, Array.getElem?_push,
    ← RegionRef.index_inj]
  split <;> rfl

theorem uses_addRegion : (ctx.addRegion location blocks).1.uses = ctx.uses := by
  simp only [addRegion, foldl_modifyBlock]

theorem sourceOf_addRegion (v : ValueRef) :
    (ctx.addRegion location blocks).1.sourceOf v = ctx.sourceOf v := by
  simp only [addRegion, foldl_modifyBlock, sourceOf]

/-- A value comes from what it came from, or is one of the new ones. -/
theorem sourceOf_addValues (source : Nat → ValueDef) (types : List TypeRef) (v : ValueRef)
    (d : ValueDef) :
    (ctx.addValues source types).sourceOf v = some d ↔
      ctx.sourceOf v = some d ∨
        ∃ k < types.length, v = ⟨ctx.values.size + k⟩ ∧ d = source k := by
  simp only [sourceOf, addValues, Array.getElem?_append, Option.map_eq_some_iff]
  split
  · rename_i hv
    refine ⟨.inl, fun h => h.resolve_right ?_⟩
    rintro ⟨k, -, rfl, -⟩
    exact absurd hv (by simp)
  · rename_i hv
    rw [Array.getElem?_eq_none (Nat.not_lt.1 hv)]
    simp only [List.getElem?_toArray, List.getElem?_map, List.getElem?_zipIdx,
      Option.map_eq_some_iff, reduceCtorEq, false_and, exists_false, false_or]
    constructor
    · rintro ⟨_, ⟨_, ⟨type, htype, rfl⟩, rfl⟩, rfl⟩
      refine ⟨v.index - ctx.values.size, (List.getElem?_eq_some_iff.1 htype).1, ?_, by simp⟩
      rw [← ValueRef.index_inj]
      simp only
      omega
    · rintro ⟨k, hk, rfl, rfl⟩
      simp [hk]

theorem sourceOf_addOp (v : ValueRef) (d : ValueDef) :
    (ctx.addOp blueprint).1.sourceOf v = some d ↔
      ctx.sourceOf v = some d ∨
        ∃ k < blueprint.resultTypes.length,
          v = ⟨ctx.values.size + k⟩ ∧ d = .result ⟨ctx.ops.size⟩ k := by
  rw [← @sourceOf_addValues ctx (.result ⟨ctx.ops.size⟩) blueprint.resultTypes v]
  simp only [addOp, foldl_modifyRegion, addValues, sourceOf]

theorem sourceOf_addBlock (v : ValueRef) (d : ValueDef) :
    (ctx.addBlock location argTypes ops).1.sourceOf v = some d ↔
      ctx.sourceOf v = some d ∨
        ∃ k < argTypes.length,
          v = ⟨ctx.values.size + k⟩ ∧ d = .argument ⟨ctx.blocks.size⟩ k := by
  rw [← @sourceOf_addValues ctx (.argument ⟨ctx.blocks.size⟩) argTypes v]
  simp only [addBlock, foldl_modifyOp, addValues, sourceOf]

theorem getElem?_nextValues (n i : Nat) (v : ValueRef) :
    (ctx.nextValues n)[i]? = some v ↔ i < n ∧ v = ⟨ctx.values.size + i⟩ := by
  simp only [nextValues, List.getElem?_map, Option.map_eq_some_iff, List.getElem?_eq_some_iff,
    List.length_range, List.getElem_range, eq_comm (a := v)]
  constructor
  · rintro ⟨_, ⟨hi, rfl⟩, h⟩
    exact ⟨hi, h⟩
  · rintro ⟨hi, h⟩
    exact ⟨i, ⟨hi, rfl⟩, h⟩

theorem mem_nextValues {n : Nat} {v : ValueRef} :
    v ∈ ctx.nextValues n ↔ ctx.values.size ≤ v.index ∧ v.index < ctx.values.size + n := by
  rw [nextValues, List.mem_map]
  constructor
  · rintro ⟨i, hi, rfl⟩
    rw [List.mem_range] at hi
    simp only
    omega
  · rintro ⟨hle, hlt⟩
    refine ⟨v.index - ctx.values.size, List.mem_range.2 (by omega), ?_⟩
    rw [← ValueRef.index_inj]
    simp only
    omega

/-! A creation that succeeds is the allocation. -/

variable {ctx' : Context} {o : OpRef} {b : BlockRef} {r : RegionRef}

theorem eq_addOp_of_createOp (hrun : ctx.createOp blueprint = .ok (ctx', o)) :
    ctx' = (ctx.addOp blueprint).1 := by
  obtain ⟨_, -, hadd⟩ := Outcome.bind_eq_ok.1 hrun
  exact congrArg Prod.fst (Outcome.pure_eq_ok.1 hadd).symm

theorem eq_addBlock_of_createBlock (hrun : ctx.createBlock location argTypes ops = .ok (ctx', b)) :
    ctx' = (ctx.addBlock location argTypes ops).1 := by
  obtain ⟨_, -, hadd⟩ := Outcome.bind_eq_ok.1 hrun
  exact congrArg Prod.fst (Outcome.pure_eq_ok.1 hadd).symm

theorem eq_addRegion_of_createRegion (hrun : ctx.createRegion location blocks = .ok (ctx', r)) :
    ctx' = (ctx.addRegion location blocks).1 := by
  obtain ⟨_, -, hadd⟩ := Outcome.bind_eq_ok.1 hrun
  exact congrArg Prod.fst (Outcome.pure_eq_ok.1 hadd).symm

end Add

end Context

end Offload
