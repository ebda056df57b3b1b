import Mathlib.Data.List.Forall2
import Offload.Proofs.Agreement
import Offload.Proofs.Ir.Coherent
import Offload.Proofs.Kind

/-!
# Pairs of contexts

The same program may stand in two contexts among different others, and under other
handles. A *pairing* tells which entities correspond, one to one (`Pairing`), for a part
of the programs: the trees of some operations, the *tops*, without what is around them.
Values from outside may be used in the part; they are free (`Border`).

Two contexts *match* if paired entities have the same rows, up to the pairing, and are
used in the same order (`Match`). Nothing is said of what is not paired.
-/

namespace Offload

/-- A one-to-one correspondence of some handles and others. -/
structure Matching (α : Type) where
  rel : α → α → Prop
  iff : ∀ {a a' b b'}, rel a a' → rel b b' → (a = b ↔ a' = b')

namespace Matching

variable {α : Type}

instance : CoeFun (Matching α) fun _ => α → α → Prop := ⟨rel⟩

/-- Something on the left is paired. -/
def Left (m : Matching α) (a : α) : Prop := ∃ a', m a a'

/-- Something on the right is paired. -/
def Right (m : Matching α) (a' : α) : Prop := ∃ a, m a a'

theorem ne_iff (m : Matching α) {a a' b b' : α} (ha : m a a') (hb : m b b') :
    a ≠ b ↔ a' ≠ b' := not_congr (m.iff ha hb)

section Lists

variable (m : Matching α) {a a' : α} (ha : m a a') {l l' : List α}
  (hl : List.Forall₂ m l l')

include ha hl

theorem mem_iff : a ∈ l ↔ a' ∈ l' := by
  induction hl with
  | nil => simp
  | cons hb _ ih => rw [List.mem_cons, List.mem_cons, m.iff ha hb, ih]

theorem idxOf? [DecidableEq α] : l.idxOf? a = l'.idxOf? a' := by
  induction hl with
  | nil => rfl
  | cons hb _ ih => simp only [List.idxOf?_cons, beq_eq_decide, m.iff hb ha, ih]

end Lists

/-- More pairs, of what had no partner before. -/
def add (m : Matching α) (r : α → α → Prop)
    (hr : ∀ {a a' b b'}, r a a' → r b b' → (a = b ↔ a' = b'))
    (hnew : ∀ {a a' b b'}, m a a' → r b b' → a ≠ b ∧ a' ≠ b') : Matching α where
  rel a a' := m a a' ∨ r a a'
  iff ha hb := by
    rcases ha with ha | ha <;> rcases hb with hb | hb
    · exact m.iff ha hb
    · exact iff_of_false (hnew ha hb).1 (hnew ha hb).2
    · exact iff_of_false (hnew hb ha).1.symm (hnew hb ha).2.symm
    · exact hr ha hb

end Matching

/-- Which entities of two contexts correspond. -/
structure Pairing where
  op : Matching OpRef
  block : Matching BlockRef
  region : Matching RegionRef
  value : Matching ValueRef

namespace Pairing

/-- All pairs of one are pairs of the other. -/
structure Le (p q : Pairing) : Prop where
  op : ∀ {o o'}, p.op o o' → q.op o o'
  block : ∀ {b b'}, p.block b b' → q.block b b'
  region : ∀ {r r'}, p.region r r' → q.region r r'
  value : ∀ {v v'}, p.value v v' → q.value v v'

theorem Le.refl (p : Pairing) : p.Le p := ⟨id, id, id, id⟩

theorem Le.trans {p q r : Pairing} (h₁ : p.Le q) (h₂ : q.Le r) : p.Le r :=
  ⟨h₂.op ∘ h₁.op, h₂.block ∘ h₁.block, h₂.region ∘ h₁.region, h₂.value ∘ h₁.value⟩

end Pairing

/-- Where the paired part ends: the outermost operations, the blocks that list them, the
    values that come from outside, and which types and attributes count as the same. -/
structure Border where
  top : OpRef → Prop
  home : Option BlockRef
  home' : Option BlockRef
  free : ValueRef → Prop
  free' : ValueRef → Prop
  type : TypeRef → TypeRef → Prop
  attributes : Attributes → Attributes → Prop

namespace Pairing

variable (p : Pairing) (s : Border)

/-- Operands that correspond: paired ones, and any two from outside. -/
def Operand (v v' : ValueRef) : Prop := p.value v v' ∨ s.free v ∧ s.free' v'

/-- Operations that correspond, below a top. -/
def Inner (o o' : OpRef) : Prop := p.op o o' ∧ ¬s.top o

/-- Operand slots that correspond. -/
def Use (u u' : Offload.Use) : Prop := p.op u.user u'.user ∧ u.slot = u'.slot

/-- Places of operations that correspond. -/
structure Place (o : OpRef) (b b' : Option BlockRef) : Prop where
  top : s.top o → b = s.home ∧ b' = s.home'
  inner : ¬s.top o → Option.Rel p.block b b'

/-- What the same operation is made from, in two contexts. -/
structure SameBlueprint (blueprint blueprint' : Blueprint) : Prop where
  kind : blueprint.kind = blueprint'.kind
  attributes : s.attributes blueprint.attributes blueprint'.attributes
  operands : List.Forall₂ (p.Operand s) blueprint.operands blueprint'.operands
  resultTypes : List.Forall₂ s.type blueprint.resultTypes blueprint'.resultTypes
  regions : List.Forall₂ p.region blueprint.regions blueprint'.regions

/-- The same operation, in two contexts. The results of a top are used outside, and no
    more than their number is compared. -/
structure SameOp (o : OpRef) (row row' : Operation) : Prop extends
    p.SameBlueprint s row.toBlueprint row'.toBlueprint where
  func : s.top o → row.kind = .func
  results : List.Forall₂ (fun v v' => ¬s.top o → p.value v v') row.results row'.results
  erased : row.erased = row'.erased
  parent : p.Place s o row.parent row'.parent

/-- The same block, in two contexts. -/
structure SameBlock (row row' : Block) : Prop where
  argTypes : List.Forall₂ s.type row.argTypes row'.argTypes
  args : List.Forall₂ p.value row.args row'.args
  ops : List.Forall₂ (p.Inner s) row.ops row'.ops
  parent : Option.Rel p.region row.parent row'.parent

/-- The same region, in two contexts. -/
structure SameRegion (row row' : Region) : Prop where
  blocks : List.Forall₂ p.block row.blocks row'.blocks
  parent : Option.Rel p.op row.parent row'.parent

section Le

variable {p q : Pairing} {s : Border} {o : OpRef}

theorem Place.mono {b b' : Option BlockRef} (hle : p.Le q) (h : p.Place s o b b') :
    q.Place s o b b' where
  top := h.top
  inner ho := rel_imp (h.inner ho) fun _ _ => hle.block

theorem Operand.mono {v v' : ValueRef} (hle : p.Le q) (h : p.Operand s v v') :
    q.Operand s v v' := h.imp_left hle.value

theorem SameBlueprint.mono {blueprint blueprint' : Blueprint} (hle : p.Le q)
    (h : p.SameBlueprint s blueprint blueprint') : q.SameBlueprint s blueprint blueprint' where
  kind := h.kind
  attributes := h.attributes
  operands := h.operands.imp fun _ _ => Operand.mono hle
  resultTypes := h.resultTypes
  regions := h.regions.imp fun _ _ => hle.region

theorem SameOp.mono {row row' : Operation} (hle : p.Le q) (h : p.SameOp s o row row') :
    q.SameOp s o row row' where
  toSameBlueprint := h.toSameBlueprint.mono hle
  func := h.func
  results := h.results.imp fun _ _ hv ho => hle.value (hv ho)
  erased := h.erased
  parent := h.parent.mono hle

theorem SameBlock.mono {row row' : Block} (hle : p.Le q) (h : p.SameBlock s row row') :
    q.SameBlock s row row' where
  argTypes := h.argTypes
  args := h.args.imp fun _ _ => hle.value
  ops := h.ops.imp fun _ _ ho => ⟨hle.op ho.1, ho.2⟩
  parent := rel_imp h.parent fun _ _ => hle.region

theorem SameRegion.mono {row row' : Region} (hle : p.Le q) (h : p.SameRegion row row') :
    q.SameRegion row row' where
  blocks := h.blocks.imp fun _ _ => hle.block
  parent := rel_imp h.parent fun _ _ => hle.op

end Le

end Pairing

/-- Paired entities are the same, each in its context. -/
structure Match (s : Border) (p : Pairing) (ctx ctx' : Context) : Prop where
  top : ∀ {o}, s.top o → p.op.Left o
  op : ∀ {o o'}, p.op o o' → ∃ row row', ctx.op o = .ok row ∧ ctx'.op o' = .ok row' ∧
    p.SameOp s o row row'
  block : ∀ {b b'}, p.block b b' → ∃ row row', ctx.block b = .ok row ∧ ctx'.block b' = .ok row' ∧
    p.SameBlock s row row'
  region : ∀ {r r'}, p.region r r' → ∃ row row', ctx.region r = .ok row ∧
    ctx'.region r' = .ok row' ∧ p.SameRegion row row'
  value : ∀ {v v'}, p.value v v' → ∃ row row', ctx.value v = .ok row ∧ ctx'.value v' = .ok row' ∧
    s.type row.type row'.type
  uses : ∀ {v v'}, p.value v v' → List.Forall₂ p.Use (ctx.uses.get v) (ctx'.uses.get v')
  free : ∀ {v}, s.free v → v.index < ctx.values.size ∧ ¬p.value.Left v
  free' : ∀ {v}, s.free' v → v.index < ctx'.values.size ∧ ¬p.value.Right v
  unused : ∀ {v : ValueRef}, ctx.values.size ≤ v.index → ctx.uses.get v = []
  unused' : ∀ {v : ValueRef}, ctx'.values.size ≤ v.index → ctx'.uses.get v = []

/-! ## What is paired exists -/

namespace Match

open Context

variable {b : Border} {p : Pairing} {ctx ctx' : Context} (h : Match b p ctx ctx')

include h

theorem hasOp {o o' : OpRef} (ho : p.op o o') : ctx.HasOp o ∧ ctx'.HasOp o' := by
  obtain ⟨row, row', hrow, hrow', -⟩ := h.op ho
  exact ⟨hasOp_iff.2 ⟨row, hrow⟩, hasOp_iff.2 ⟨row', hrow'⟩⟩

theorem hasBlock {k k' : BlockRef} (hk : p.block k k') : ctx.HasBlock k ∧ ctx'.HasBlock k' := by
  obtain ⟨row, row', hrow, hrow', -⟩ := h.block hk
  exact ⟨hasBlock_iff.2 ⟨row, hrow⟩, hasBlock_iff.2 ⟨row', hrow'⟩⟩

theorem hasRegion {r r' : RegionRef} (hr : p.region r r') :
    ctx.HasRegion r ∧ ctx'.HasRegion r' := by
  obtain ⟨row, row', hrow, hrow', -⟩ := h.region hr
  exact ⟨hasRegion_iff.2 ⟨row, hrow⟩, hasRegion_iff.2 ⟨row', hrow'⟩⟩

theorem value_lt {v v' : ValueRef} (hv : p.value v v') :
    v.index < ctx.values.size ∧ v'.index < ctx'.values.size := by
  obtain ⟨row, row', hrow, hrow', -⟩ := h.value hv
  exact ⟨(Array.getElem?_eq_some_iff.1 (value_eq_ok.1 hrow)).1,
    (Array.getElem?_eq_some_iff.1 (value_eq_ok.1 hrow')).1⟩

theorem operand_lt {v v' : ValueRef} (hv : p.Operand b v v') :
    v.index < ctx.values.size ∧ v'.index < ctx'.values.size := by
  rcases hv with hv | ⟨hv, hv'⟩
  · exact h.value_lt hv
  · exact ⟨(h.free hv).1, (h.free' hv').1⟩

/-- What is paired is not from outside. -/
theorem eq_iff {v v' w w' : ValueRef} (hv : p.value v v') (hw : p.Operand b w w') :
    v = w ↔ v' = w' := by
  rcases hw with hw | ⟨hw, hw'⟩
  · exact p.value.iff hv hw
  · constructor <;> rintro rfl
    · exact absurd ⟨v', hv⟩ (h.free hw).2
    · exact absurd ⟨v, hv⟩ (h.free' hw').2

end Match

/-! ## Rows replaced -/

namespace Context

variable {ctx : Context} {o q : OpRef} {b c : BlockRef} {r t : RegionRef}

theorem op_modifyOp_self {row : Operation} (h : ctx.op o = .ok row) (g : Operation → Operation) :
    (ctx.modifyOp o g).op o = .ok (g row) := by
  rw [op_iff_readOp, readOp_modifyOp, if_pos rfl, readOp_of_op h]
  rfl

theorem op_modifyOp_of_ne (h : q ≠ o) (g : Operation → Operation) :
    (ctx.modifyOp o g).op q = ctx.op q := by
  rw [op, modifyOp, Array.getElem?_modify, if_neg fun e => h (OpRef.index_inj.1 e.symm)]
  rfl

theorem block_modifyBlock_self {row : Block} (h : ctx.block b = .ok row) (g : Block → Block) :
    (ctx.modifyBlock b g).block b = .ok (g row) := by
  rw [block_iff_readBlock, readBlock_modifyBlock, if_pos rfl, readBlock_of_block h]
  rfl

theorem block_modifyBlock_of_ne (h : c ≠ b) (g : Block → Block) :
    (ctx.modifyBlock b g).block c = ctx.block c := by
  rw [block, modifyBlock, Array.getElem?_modify, if_neg fun e => h (BlockRef.index_inj.1 e.symm)]
  rfl

theorem region_modifyRegion_self {row : Region} (h : ctx.region r = .ok row)
    (g : Region → Region) : (ctx.modifyRegion r g).region r = .ok (g row) := by
  rw [region_iff_readRegion, readRegion_modifyRegion, if_pos rfl, readRegion_of_region h]
  rfl

theorem region_modifyRegion_of_ne (h : t ≠ r) (g : Region → Region) :
    (ctx.modifyRegion r g).region t = ctx.region t := by
  rw [region, modifyRegion, Array.getElem?_modify,
    if_neg fun e => h (RegionRef.index_inj.1 e.symm)]
  rfl

end Context

/-! ## Outside the part -/

/-- Some entities of a context. -/
structure Extent where
  op : OpRef → Prop
  block : BlockRef → Prop
  region : RegionRef → Prop
  value : ValueRef → Prop

/-- All rows that there were stay as they are, and all values are used as they were, but for
    those of the given extent. -/
structure ChangesOnly (x : Extent) (ctx ctx' : Context) : Prop where
  op : ∀ {o row}, ctx.op o = .ok row → ¬x.op o → ctx'.op o = .ok row
  block : ∀ {b row}, ctx.block b = .ok row → ¬x.block b → ctx'.block b = .ok row
  region : ∀ {r row}, ctx.region r = .ok row → ¬x.region r → ctx'.region r = .ok row
  value : ∀ {v row}, ctx.value v = .ok row → ctx'.value v = .ok row
  uses : ∀ {v : ValueRef}, v.index < ctx.values.size → ¬x.value v →
    ctx'.uses.get v = ctx.uses.get v
  ops : ctx.ops.size ≤ ctx'.ops.size
  blocks : ctx.blocks.size ≤ ctx'.blocks.size
  regions : ctx.regions.size ≤ ctx'.regions.size
  values : ctx.values.size ≤ ctx'.values.size

namespace ChangesOnly

variable {x y : Extent} {old ctx : Context}

theorem refl (ctx : Context) : ChangesOnly x ctx ctx :=
  ⟨fun h _ => h, fun h _ => h, fun h _ => h, id, fun _ _ => rfl, Nat.le_refl _, Nat.le_refl _,
    Nat.le_refl _, Nat.le_refl _⟩

theorem mono (h : ChangesOnly x old ctx) (hop : ∀ o, x.op o → y.op o)
    (hblock : ∀ b, x.block b → y.block b) (hregion : ∀ r, x.region r → y.region r)
    (hvalue : ∀ v, x.value v → y.value v) : ChangesOnly y old ctx where
  op ho hn := h.op ho fun hx => hn (hop _ hx)
  block hb hn := h.block hb fun hx => hn (hblock _ hx)
  region hr hn := h.region hr fun hx => hn (hregion _ hx)
  value := h.value
  uses hv hn := h.uses hv fun hx => hn (hvalue _ hx)
  ops := h.ops
  blocks := h.blocks
  regions := h.regions
  values := h.values

theorem modifyOp {o : OpRef} (h : ChangesOnly x old ctx) (ho : x.op o) (g : Operation → Operation) :
    ChangesOnly x old (ctx.modifyOp o g) where
  op hq hn := (Context.op_modifyOp_of_ne (fun e => hn (by rwa [e])) g).trans (h.op hq hn)
  block := h.block
  region := h.region
  value := h.value
  uses := h.uses
  ops := by
    rw [Context.modifyOp, Array.size_modify]
    exact h.ops
  blocks := h.blocks
  regions := h.regions
  values := h.values

theorem modifyBlock {b : BlockRef} (h : ChangesOnly x old ctx) (hb : x.block b) (g : Block → Block) :
    ChangesOnly x old (ctx.modifyBlock b g) where
  op := h.op
  block hc hn := (Context.block_modifyBlock_of_ne (fun e => hn (by rwa [e])) g).trans (h.block hc hn)
  region := h.region
  value := h.value
  uses := h.uses
  ops := h.ops
  blocks := by
    rw [Context.modifyBlock, Array.size_modify]
    exact h.blocks
  regions := h.regions
  values := h.values

theorem modifyRegion {r : RegionRef} (h : ChangesOnly x old ctx) (hr : x.region r)
    (g : Region → Region) : ChangesOnly x old (ctx.modifyRegion r g) where
  op := h.op
  block := h.block
  region ht hn :=
    (Context.region_modifyRegion_of_ne (fun e => hn (by rwa [e])) g).trans (h.region ht hn)
  value := h.value
  uses := h.uses
  ops := h.ops
  blocks := h.blocks
  regions := by
    rw [Context.modifyRegion, Array.size_modify]
    exact h.regions
  values := h.values

theorem setUses {v : ValueRef} (h : ChangesOnly x old ctx) (hv : x.value v) (chain : List Use) :
    ChangesOnly x old { ctx with uses := ctx.uses.set v chain } where
  op := h.op
  block := h.block
  region := h.region
  value := h.value
  uses hw hn := by
    rw [UseTable.get_set, if_neg fun e => hn (by rwa [← e]), h.uses hw hn]
  ops := h.ops
  blocks := h.blocks
  regions := h.regions
  values := h.values

end ChangesOnly

/-- Two extents have nothing in common. -/
structure Extent.Apart (x y : Extent) : Prop where
  op : ∀ o, x.op o → ¬y.op o
  block : ∀ b, x.block b → ¬y.block b
  region : ∀ r, x.region r → ¬y.region r
  value : ∀ v, x.value v → ¬y.value v

theorem Extent.Apart.symm {x y : Extent} (h : x.Apart y) : y.Apart x :=
  ⟨fun o hy hx => h.op o hx hy, fun b hy hx => h.block b hx hy, fun r hy hx => h.region r hx hy,
    fun v hy hx => h.value v hx hy⟩

/-- Nothing. -/
def Extent.none : Extent := ⟨fun _ => False, fun _ => False, fun _ => False, fun _ => False⟩

theorem Extent.apart_none (x : Extent) : x.Apart .none :=
  ⟨fun _ _ => id, fun _ _ => id, fun _ _ => id, fun _ _ => id⟩

/-- Some entities are in the tables of a context. -/
structure Extent.Bounded (x : Extent) (ctx : Context) : Prop where
  op : ∀ o, x.op o → ctx.HasOp o
  block : ∀ b, x.block b → ctx.HasBlock b
  region : ∀ r, x.region r → ctx.HasRegion r
  value : ∀ v, x.value v → v.index < ctx.values.size

namespace Pairing

/-- What is paired on the left. -/
def leftPart (p : Pairing) : Extent := ⟨p.op.Left, p.block.Left, p.region.Left, p.value.Left⟩

/-- What is paired on the right. -/
def rightPart (p : Pairing) : Extent := ⟨p.op.Right, p.block.Right, p.region.Right, p.value.Right⟩

end Pairing

theorem Match.bounded {s : Border} {p : Pairing} {ctx ctx' : Context} (h : Match s p ctx ctx') :
    p.leftPart.Bounded ctx ∧ p.rightPart.Bounded ctx' :=
  ⟨⟨fun _ ⟨_, ho⟩ => (h.hasOp ho).1, fun _ ⟨_, hb⟩ => (h.hasBlock hb).1,
      fun _ ⟨_, hr⟩ => (h.hasRegion hr).1, fun _ ⟨_, hv⟩ => (h.value_lt hv).1⟩,
    fun _ ⟨_, ho⟩ => (h.hasOp ho).2, fun _ ⟨_, hb⟩ => (h.hasBlock hb).2,
      fun _ ⟨_, hr⟩ => (h.hasRegion hr).2, fun _ ⟨_, hv⟩ => (h.value_lt hv).2⟩

/-- Paired entities stay the same while others change. -/
theorem Match.leaves {s : Border} {p : Pairing} {ctx ctx' ctx₁ ctx₁' : Context} {x x' : Extent}
    (h : Match s p ctx ctx') (hleaves : ChangesOnly x ctx ctx₁) (hleaves' : ChangesOnly x' ctx' ctx₁')
    (hapart : p.leftPart.Apart x) (hapart' : p.rightPart.Apart x')
    (hunused : ∀ {v : ValueRef}, ctx₁.values.size ≤ v.index → ctx₁.uses.get v = [])
    (hunused' : ∀ {v : ValueRef}, ctx₁'.values.size ≤ v.index → ctx₁'.uses.get v = []) :
    Match s p ctx₁ ctx₁' where
  top := h.top
  op {o o'} ho := by
    obtain ⟨row, row', hrow, hrow', hsame⟩ := h.op ho
    exact ⟨row, row', hleaves.op hrow (hapart.op o ⟨o', ho⟩),
      hleaves'.op hrow' (hapart'.op o' ⟨o, ho⟩), hsame⟩
  block {b b'} hb := by
    obtain ⟨row, row', hrow, hrow', hsame⟩ := h.block hb
    exact ⟨row, row', hleaves.block hrow (hapart.block b ⟨b', hb⟩),
      hleaves'.block hrow' (hapart'.block b' ⟨b, hb⟩), hsame⟩
  region {r r'} hr := by
    obtain ⟨row, row', hrow, hrow', hsame⟩ := h.region hr
    exact ⟨row, row', hleaves.region hrow (hapart.region r ⟨r', hr⟩),
      hleaves'.region hrow' (hapart'.region r' ⟨r, hr⟩), hsame⟩
  value hv := by
    obtain ⟨row, row', hrow, hrow', htype⟩ := h.value hv
    exact ⟨row, row', hleaves.value hrow, hleaves'.value hrow', htype⟩
  uses {v v'} hv := by
    rw [hleaves.uses (h.value_lt hv).1 (hapart.value v ⟨v', hv⟩),
      hleaves'.uses (h.value_lt hv).2 (hapart'.value v' ⟨v, hv⟩)]
    exact h.uses hv
  free hv := (h.free hv).imp_left fun hlt => Nat.lt_of_lt_of_le hlt hleaves.values
  free' hv := (h.free' hv).imp_left fun hlt => Nat.lt_of_lt_of_le hlt hleaves'.values
  unused := hunused
  unused' := hunused'

end Offload
