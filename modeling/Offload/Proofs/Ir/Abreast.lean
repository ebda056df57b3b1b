import Mathlib.Data.List.Forall2
import Offload.Proofs.Ir.Pairing

/-!
# Contexts that change alike

Two contexts that match are changed in the same way, and match again: what was made on
the way is paired as well, and what is outside the paired part has stayed as it was
(`Abreast`). The changes of single rows, of use chains, and the allocations keep this;
all other changes are made of these.
-/

namespace Offload

open Context

/-- Two contexts before they change, with the pairing that there is. -/
structure Outset where
  border : Border
  pairing : Pairing
  left : Context
  right : Context

namespace Pairing

/-- What is paired on the left, with the values from outside. -/
def leftExtent (p : Pairing) (s : Border) : Extent :=
  ⟨p.op.Left, p.block.Left, p.region.Left, fun v => p.value.Left v ∨ s.free v⟩

/-- What is paired on the right, with the values from outside. -/
def rightExtent (p : Pairing) (s : Border) : Extent :=
  ⟨p.op.Right, p.block.Right, p.region.Right, fun v => p.value.Right v ∨ s.free' v⟩

end Pairing

/-- Two contexts match again after changes that went alike. New operations have come in
    step. -/
structure Abreast (s : Outset) (p : Pairing) (ctx ctx' : Context) : Prop extends
    Match s.border p ctx ctx' where
  le : s.pairing.Le p
  newOp : ∀ {o o'}, p.op o o' → s.pairing.op o o' ∨ s.left.ops.size ≤ o.index ∧
    s.right.ops.size ≤ o'.index ∧ o'.index + s.left.ops.size = o.index + s.right.ops.size
  newBlock : ∀ {b b'}, p.block b b' → s.pairing.block b b' ∨
    s.left.blocks.size ≤ b.index ∧ s.right.blocks.size ≤ b'.index
  newRegion : ∀ {r r'}, p.region r r' → s.pairing.region r r' ∨
    s.left.regions.size ≤ r.index ∧ s.right.regions.size ≤ r'.index
  newValue : ∀ {v v'}, p.value v v' → s.pairing.value v v' ∨
    s.left.values.size ≤ v.index ∧ s.right.values.size ≤ v'.index
  leaves : ChangesOnly (p.leftExtent s.border) s.left ctx
  leaves' : ChangesOnly (p.rightExtent s.border) s.right ctx'
  size : ctx'.ops.size + s.left.ops.size = ctx.ops.size + s.right.ops.size

theorem Extent.Apart.of_leftExtent {x : Extent} {p : Pairing} {s : Border}
    (h : x.Apart (p.leftExtent s)) : x.Apart p.leftPart :=
  ⟨h.op, h.block, h.region, fun v hv hp => h.value v hv (.inl hp)⟩

variable {s : Outset} {p q : Pairing} {ctx ctx' : Context}

theorem Match.abreast {b : Border} (h : Match b p ctx ctx') : Abreast ⟨b, p, ctx, ctx'⟩ p ctx ctx' where
  toMatch := h
  le := .refl p
  newOp := .inl
  newBlock := .inl
  newRegion := .inl
  newValue := .inl
  leaves := .refl ctx
  leaves' := .refl ctx'
  size := Nat.add_comm _ _

/-! ## Changes of rows -/

section Rows

variable {b : Border} {o o' : OpRef} {k k' : BlockRef} {r r' : RegionRef} {v v' : ValueRef}

theorem Match.modifyOp (h : Match b p ctx ctx') (ho : p.op o o')
    {g g' : Operation → Operation}
    (hg : ∀ row row', p.SameOp b o row row' → p.SameOp b o (g row) (g' row')) :
    Match b p (ctx.modifyOp o g) (ctx'.modifyOp o' g') where
  top := h.top
  op {q q'} hq := by
    obtain ⟨row, row', hrow, hrow', hsame⟩ := h.op hq
    by_cases e : q = o
    · obtain rfl := (p.op.iff hq ho).1 e
      subst e
      exact ⟨_, _, op_modifyOp_self hrow g, op_modifyOp_self hrow' g', hg _ _ hsame⟩
    · have e' := (p.op.ne_iff hq ho).1 e
      exact ⟨row, row', (op_modifyOp_of_ne e g).trans hrow, (op_modifyOp_of_ne e' g').trans hrow',
        hsame⟩
  block := h.block
  region := h.region
  value := h.value
  uses := h.uses
  free := h.free
  free' := h.free'
  unused := h.unused
  unused' := h.unused'

theorem Match.modifyBlock (h : Match b p ctx ctx') (hk : p.block k k') {g g' : Block → Block}
    (hg : ∀ row row', p.SameBlock b row row' → p.SameBlock b (g row) (g' row')) :
    Match b p (ctx.modifyBlock k g) (ctx'.modifyBlock k' g') where
  top := h.top
  op := h.op
  block {c c'} hc := by
    obtain ⟨row, row', hrow, hrow', hsame⟩ := h.block hc
    by_cases e : c = k
    · obtain rfl := (p.block.iff hc hk).1 e
      subst e
      exact ⟨_, _, block_modifyBlock_self hrow g, block_modifyBlock_self hrow' g', hg _ _ hsame⟩
    · have e' := (p.block.ne_iff hc hk).1 e
      exact ⟨row, row', (block_modifyBlock_of_ne e g).trans hrow,
        (block_modifyBlock_of_ne e' g').trans hrow', hsame⟩
  region := h.region
  value := h.value
  uses := h.uses
  free := h.free
  free' := h.free'
  unused := h.unused
  unused' := h.unused'

theorem Match.modifyRegion (h : Match b p ctx ctx') (hr : p.region r r') {g g' : Region → Region}
    (hg : ∀ row row', p.SameRegion row row' → p.SameRegion (g row) (g' row')) :
    Match b p (ctx.modifyRegion r g) (ctx'.modifyRegion r' g') where
  top := h.top
  op := h.op
  block := h.block
  region {t t'} ht := by
    obtain ⟨row, row', hrow, hrow', hsame⟩ := h.region ht
    by_cases e : t = r
    · obtain rfl := (p.region.iff ht hr).1 e
      subst e
      exact ⟨_, _, region_modifyRegion_self hrow g, region_modifyRegion_self hrow' g',
        hg _ _ hsame⟩
    · have e' := (p.region.ne_iff ht hr).1 e
      exact ⟨row, row', (region_modifyRegion_of_ne e g).trans hrow,
        (region_modifyRegion_of_ne e' g').trans hrow', hsame⟩
  value := h.value
  uses := h.uses
  free := h.free
  free' := h.free'
  unused := h.unused
  unused' := h.unused'

/-- The chains of two operands are replaced; what they are only matters if the operands are
    paired. -/
theorem Match.setUses (h : Match b p ctx ctx') (hv : p.Operand b v v') {l l' : List Use}
    (hl : p.value v v' → List.Forall₂ p.Use l l') :
    Match b p { ctx with uses := ctx.uses.set v l } { ctx' with uses := ctx'.uses.set v' l' } where
  top := h.top
  op := h.op
  block := h.block
  region := h.region
  value := h.value
  uses {w w'} hw := by
    simp only [UseTable.get_set]
    rcases hv with hv | ⟨hv, hv'⟩
    · by_cases e : v = w
      · rw [if_pos e, if_pos ((p.value.iff hv hw).1 e)]
        exact hl hv
      · rw [if_neg e, if_neg ((p.value.ne_iff hv hw).1 e)]
        exact h.uses hw
    · rw [if_neg, if_neg]
      · exact h.uses hw
      · rintro rfl
        exact (h.free' hv').2 ⟨w, hw⟩
      · rintro rfl
        exact (h.free hv).2 ⟨w', hw⟩
  free := h.free
  free' := h.free'
  unused {w} hw := by
    have hlt := (h.operand_lt hv).1
    rw [UseTable.get_set, if_neg]
    · exact h.unused hw
    · rintro rfl
      exact Nat.lt_irrefl _ (Nat.lt_of_lt_of_le hlt hw)
  unused' {w} hw := by
    have hlt := (h.operand_lt hv).2
    rw [UseTable.get_set, if_neg]
    · exact h.unused' hw
    · rintro rfl
      exact Nat.lt_irrefl _ (Nat.lt_of_lt_of_le hlt hw)

end Rows

namespace Abreast

variable {o o' : OpRef} {b b' : BlockRef} {r r' : RegionRef} {v v' : ValueRef}

theorem modifyOp (h : Abreast s p ctx ctx') (ho : p.op o o') {g g' : Operation → Operation}
    (hg : ∀ row row', p.SameOp s.border o row row' → p.SameOp s.border o (g row) (g' row')) :
    Abreast s p (ctx.modifyOp o g) (ctx'.modifyOp o' g') :=
  { h with
    toMatch := h.toMatch.modifyOp ho hg
    leaves := h.leaves.modifyOp ⟨o', ho⟩ g
    leaves' := h.leaves'.modifyOp ⟨o, ho⟩ g'
    size := by simpa only [Context.modifyOp, Array.size_modify] using h.size }

theorem modifyBlock (h : Abreast s p ctx ctx') (hb : p.block b b') {g g' : Block → Block}
    (hg : ∀ row row', p.SameBlock s.border row row' → p.SameBlock s.border (g row) (g' row')) :
    Abreast s p (ctx.modifyBlock b g) (ctx'.modifyBlock b' g') :=
  { h with
    toMatch := h.toMatch.modifyBlock hb hg
    leaves := h.leaves.modifyBlock ⟨b', hb⟩ g
    leaves' := h.leaves'.modifyBlock ⟨b, hb⟩ g' }

theorem modifyRegion (h : Abreast s p ctx ctx') (hr : p.region r r') {g g' : Region → Region}
    (hg : ∀ row row', p.SameRegion row row' → p.SameRegion (g row) (g' row')) :
    Abreast s p (ctx.modifyRegion r g) (ctx'.modifyRegion r' g') :=
  { h with
    toMatch := h.toMatch.modifyRegion hr hg
    leaves := h.leaves.modifyRegion ⟨r', hr⟩ g
    leaves' := h.leaves'.modifyRegion ⟨r, hr⟩ g' }

theorem setUses (h : Abreast s p ctx ctx') (hv : p.Operand s.border v v') {l l' : List Use}
    (hl : p.value v v' → List.Forall₂ p.Use l l') :
    Abreast s p { ctx with uses := ctx.uses.set v l }
      { ctx' with uses := ctx'.uses.set v' l' } :=
  { h with
    toMatch := h.toMatch.setUses hv hl
    leaves := h.leaves.setUses (hv.imp (fun hv => ⟨v', hv⟩) And.left) l
    leaves' := h.leaves'.setUses (hv.imp (fun hv => ⟨v, hv⟩) And.right) l' }

theorem pushUse (h : Abreast s p ctx ctx') (hv : p.Operand s.border v v') {u u' : Use}
    (hu : p.Use u u') : Abreast s p { ctx with uses := ctx.uses.push v u }
      { ctx' with uses := ctx'.uses.push v' u' } :=
  h.setUses hv fun hv => List.rel_append (h.uses hv) (.cons hu .nil)

theorem addUses (h : Abreast s p ctx ctx') (ho : p.op o o') (slot : Nat) {vs vs' : List ValueRef}
    (hvs : List.Forall₂ (p.Operand s.border) vs vs') :
    Abreast s p { ctx with uses := Context.addUses ctx.uses o slot vs }
      { ctx' with uses := Context.addUses ctx'.uses o' slot vs' } := by
  induction hvs generalizing ctx ctx' slot with
  | nil => exact h
  | cons hv _ ih =>
    have huse : p.Use ⟨o, slot⟩ ⟨o', slot⟩ := ⟨ho, rfl⟩
    exact ih (h.pushUse hv huse) (slot + 1)

/-- The uses of an operation are taken from the chains. -/
theorem dropUses (h : Abreast s p ctx ctx') (ho : p.op o o') (slot : Nat)
    {vs vs' : List ValueRef} (hvs : List.Forall₂ (p.Operand s.border) vs vs') :
    Abreast s p { ctx with uses := Context.dropUses ctx.uses o slot vs }
      { ctx' with uses := Context.dropUses ctx'.uses o' slot vs' } := by
  induction hvs generalizing ctx ctx' slot with
  | nil => exact h
  | cons hv _ ih =>
    refine ih (h.setUses hv fun hv => ?_) (slot + 1)
    refine List.rel_filter (fun u u' hu => ?_) (h.uses hv)
    obtain ⟨user, k⟩ := u
    obtain ⟨user', k'⟩ := u'
    obtain ⟨hu, rfl⟩ : p.op user user' ∧ k = k' := hu
    simp only [ne_eq, Use.mk.injEq, decide_not, Bool.not_eq_eq_eq_not,
      p.op.iff hu ho]

end Abreast

/-! ## New rows -/

namespace Context

variable (ctx : Context)

/-- A context with one more operation. -/
def newOp (row : Operation) : Context := { ctx with ops := ctx.ops.push row }

/-- A context with one more block. -/
def newBlock (row : Block) : Context := { ctx with blocks := ctx.blocks.push row }

/-- A context with one more region. -/
def newRegion (row : Region) : Context := { ctx with regions := ctx.regions.push row }

variable {ctx}

theorem op_newOp_self (row : Operation) : (ctx.newOp row).op ⟨ctx.ops.size⟩ = .ok row := by
  rw [op_eq_ok, newOp, Array.getElem?_push_size]

theorem op_newOp {o : OpRef} {row : Operation} (h : ctx.op o = .ok row) (fresh : Operation) :
    (ctx.newOp fresh).op o = .ok row := by
  rw [op_eq_ok] at h ⊢
  rw [newOp, Array.getElem?_push, if_neg, h]
  have := (Array.getElem?_eq_some_iff.1 h).1
  omega

theorem block_newBlock_self (row : Block) :
    (ctx.newBlock row).block ⟨ctx.blocks.size⟩ = .ok row := by
  rw [block_eq_ok, newBlock, Array.getElem?_push_size]

theorem block_newBlock {b : BlockRef} {row : Block} (h : ctx.block b = .ok row) (fresh : Block) :
    (ctx.newBlock fresh).block b = .ok row := by
  rw [block_eq_ok] at h ⊢
  rw [newBlock, Array.getElem?_push, if_neg, h]
  have := (Array.getElem?_eq_some_iff.1 h).1
  omega

theorem region_newRegion_self (row : Region) :
    (ctx.newRegion row).region ⟨ctx.regions.size⟩ = .ok row := by
  rw [region_eq_ok, newRegion, Array.getElem?_push_size]

theorem region_newRegion {r : RegionRef} {row : Region} (h : ctx.region r = .ok row)
    (fresh : Region) : (ctx.newRegion fresh).region r = .ok row := by
  rw [region_eq_ok] at h ⊢
  rw [newRegion, Array.getElem?_push, if_neg, h]
  have := (Array.getElem?_eq_some_iff.1 h).1
  omega

theorem value_addValues {v : ValueRef} {row : Value} (h : ctx.value v = .ok row)
    (source : Nat → ValueDef) (types : List TypeRef) :
    (ctx.addValues source types).value v = .ok row := by
  rw [value_eq_ok] at h ⊢
  rw [addValues, Array.getElem?_append_left (Array.getElem?_eq_some_iff.1 h).1, h]

theorem value_addValues_new (source : Nat → ValueDef) {types : List TypeRef} {i : Nat}
    {t : TypeRef} (h : types[i]? = some t) :
    (ctx.addValues source types).value ⟨ctx.values.size + i⟩ = .ok ⟨source i, t⟩ := by
  rw [value_eq_ok, addValues, Array.getElem?_append_right (Nat.le_add_right _ _)]
  simp [h]

theorem size_addValues (source : Nat → ValueDef) (types : List TypeRef) :
    (ctx.addValues source types).values.size = ctx.values.size + types.length := by
  simp [addValues]

/-- Allocating an operation, its values first. -/
theorem addOp_fst (blueprint : Blueprint) : (ctx.addOp blueprint).1 =
    let new := blueprint.regions.foldl
      (fun c r => c.modifyRegion r fun row => { row with parent := some ⟨ctx.ops.size⟩ })
      ((ctx.addValues (.result ⟨ctx.ops.size⟩) blueprint.resultTypes).newOp
        (ctx.freshRow blueprint))
    { new with uses := addUses new.uses ⟨ctx.ops.size⟩ 0 blueprint.operands } := by
  simp only [addOp, foldl_modifyRegion, addValues, newOp, freshRow]

end Context

namespace ChangesOnly

variable {x : Extent} {old : Context}

theorem newOp (h : ChangesOnly x old ctx) (row : Operation) : ChangesOnly x old (ctx.newOp row) where
  op ho hn := op_newOp (h.op ho hn) row
  block := h.block
  region := h.region
  value := h.value
  uses := h.uses
  ops := by
    rw [Context.newOp, Array.size_push]
    exact Nat.le_succ_of_le h.ops
  blocks := h.blocks
  regions := h.regions
  values := h.values

theorem newBlock (h : ChangesOnly x old ctx) (row : Block) : ChangesOnly x old (ctx.newBlock row) where
  op := h.op
  block hb hn := block_newBlock (h.block hb hn) row
  region := h.region
  value := h.value
  uses := h.uses
  ops := h.ops
  blocks := by
    rw [Context.newBlock, Array.size_push]
    exact Nat.le_succ_of_le h.blocks
  regions := h.regions
  values := h.values

theorem newRegion (h : ChangesOnly x old ctx) (row : Region) : ChangesOnly x old (ctx.newRegion row) where
  op := h.op
  block := h.block
  region hr hn := region_newRegion (h.region hr hn) row
  value := h.value
  uses := h.uses
  ops := h.ops
  blocks := h.blocks
  regions := by
    rw [Context.newRegion, Array.size_push]
    exact Nat.le_succ_of_le h.regions
  values := h.values

theorem addValues (h : ChangesOnly x old ctx) (source : Nat → ValueDef) (types : List TypeRef) :
    ChangesOnly x old (ctx.addValues source types) where
  op := h.op
  block := h.block
  region := h.region
  value hv := value_addValues (h.value hv) source types
  uses := h.uses
  ops := h.ops
  blocks := h.blocks
  regions := h.regions
  values := by
    rw [size_addValues]
    exact Nat.le_trans h.values (Nat.le_add_right _ _)

end ChangesOnly

namespace Pairing

/-- Two operations are paired in addition. -/
def withOp (p : Pairing) (o o' : OpRef) (hnew : ∀ {q q'}, p.op q q' → q ≠ o ∧ q' ≠ o') :
    Pairing :=
  { p with
    op := p.op.add (fun q q' => q = o ∧ q' = o') (fun h h' => by simp [h, h'])
      fun h h' => h'.1 ▸ h'.2 ▸ hnew h }

/-- Two blocks are paired in addition. -/
def withBlock (p : Pairing) (b b' : BlockRef) (hnew : ∀ {c c'}, p.block c c' → c ≠ b ∧ c' ≠ b') :
    Pairing :=
  { p with
    block := p.block.add (fun c c' => c = b ∧ c' = b') (fun h h' => by simp [h, h'])
      fun h h' => h'.1 ▸ h'.2 ▸ hnew h }

/-- Two regions are paired in addition. -/
def withRegion (p : Pairing) (r r' : RegionRef)
    (hnew : ∀ {t t'}, p.region t t' → t ≠ r ∧ t' ≠ r') : Pairing :=
  { p with
    region := p.region.add (fun t t' => t = r ∧ t' = r') (fun h h' => by simp [h, h'])
      fun h h' => h'.1 ▸ h'.2 ▸ hnew h }

/-- As many values are paired in addition, from two places on. -/
def withValues (p : Pairing) (k k' n : Nat)
    (hnew : ∀ {v v'}, p.value v v' → v.index < k ∧ v'.index < k') : Pairing :=
  { p with
    value := p.value.add (fun v v' => ∃ i < n, v = ⟨k + i⟩ ∧ v' = ⟨k' + i⟩)
      (by
        rintro _ _ _ _ ⟨i, -, rfl, rfl⟩ ⟨j, -, rfl, rfl⟩
        simp)
      (by
        rintro v v' _ _ hv ⟨i, -, rfl, rfl⟩
        obtain ⟨hlt, hlt'⟩ := hnew hv
        constructor <;> (rintro rfl; dsimp only at hlt hlt'; omega)) }

end Pairing

/-! ## Allocation -/

section Fresh

variable {b : Border} (h : Match b p ctx ctx')

include h

theorem Match.op_ne {o o' : OpRef} (ho : p.op o o') : o ≠ ⟨ctx.ops.size⟩ ∧ o' ≠ ⟨ctx'.ops.size⟩ := by
  constructor <;> rintro rfl
  · exact not_hasOp_size (h.hasOp ho).1
  · exact not_hasOp_size (h.hasOp ho).2

theorem Match.not_top : ¬b.top ⟨ctx.ops.size⟩ := fun ho => by
  obtain ⟨o', ho'⟩ := h.top ho
  exact (h.op_ne ho').1 rfl

theorem Match.block_ne {k k' : BlockRef} (hk : p.block k k') :
    k ≠ ⟨ctx.blocks.size⟩ ∧ k' ≠ ⟨ctx'.blocks.size⟩ := by
  constructor <;> rintro rfl
  · exact not_hasBlock_size (h.hasBlock hk).1
  · exact not_hasBlock_size (h.hasBlock hk).2

theorem Match.region_ne {r r' : RegionRef} (hr : p.region r r') :
    r ≠ ⟨ctx.regions.size⟩ ∧ r' ≠ ⟨ctx'.regions.size⟩ := by
  constructor <;> rintro rfl
  · exact not_hasRegion_size (h.hasRegion hr).1
  · exact not_hasRegion_size (h.hasRegion hr).2

end Fresh

namespace Abreast

/-- The pairing grows, and nothing else changes. -/
theorem leaves_mono (h : Abreast s p ctx ctx') (hle : p.Le q) :
    ChangesOnly (q.leftExtent s.border) s.left ctx ∧ ChangesOnly (q.rightExtent s.border) s.right ctx' :=
  ⟨h.leaves.mono (fun _ ⟨o, ho⟩ => ⟨o, hle.op ho⟩) (fun _ ⟨b, hb⟩ => ⟨b, hle.block hb⟩)
      (fun _ ⟨r, hr⟩ => ⟨r, hle.region hr⟩)
      fun _ hv => hv.imp_left fun ⟨v, hv⟩ => ⟨v, hle.value hv⟩,
    h.leaves'.mono (fun _ ⟨o, ho⟩ => ⟨o, hle.op ho⟩) (fun _ ⟨b, hb⟩ => ⟨b, hle.block hb⟩)
      (fun _ ⟨r, hr⟩ => ⟨r, hle.region hr⟩)
      fun _ hv => hv.imp_left fun ⟨v, hv⟩ => ⟨v, hle.value hv⟩⟩

theorem newOp_match (h : Abreast s p ctx ctx') {row row' : Operation}
    (hrow : p.SameOp s.border ⟨ctx.ops.size⟩ row row') :
    ∃ q, p.Le q ∧ q.Inner s.border ⟨ctx.ops.size⟩ ⟨ctx'.ops.size⟩ ∧
      Abreast s q (ctx.newOp row) (ctx'.newOp row') := by
  let q := p.withOp ⟨ctx.ops.size⟩ ⟨ctx'.ops.size⟩ h.op_ne
  have hle : p.Le q := ⟨.inl, id, id, id⟩
  refine ⟨q, hle, ⟨.inr ⟨rfl, rfl⟩, h.not_top⟩, ?_⟩
  obtain ⟨hleaves, hleaves'⟩ := h.leaves_mono hle
  refine
    { top := fun ho => (h.top ho).imp fun _ => hle.op
      op := ?_
      block := fun hb => ?_
      region := fun hr => ?_
      value := h.value
      uses := fun hv => (h.uses hv).imp fun _ _ hu => ⟨hle.op hu.1, hu.2⟩
      free := h.free
      free' := h.free'
      unused := h.unused
      unused' := h.unused'
      le := h.le.trans hle
      newOp := ?_
      newBlock := h.newBlock
      newRegion := h.newRegion
      newValue := h.newValue
      leaves := hleaves.newOp row
      leaves' := hleaves'.newOp row'
      size := ?_ }
  · rintro o o' (ho | ⟨rfl, rfl⟩)
    · obtain ⟨r, r', hr, hr', hsame⟩ := h.op ho
      exact ⟨r, r', op_newOp hr row, op_newOp hr' row', hsame.mono hle⟩
    · exact ⟨row, row', op_newOp_self row, op_newOp_self row', hrow.mono hle⟩
  · obtain ⟨r, r', hr, hr', hsame⟩ := h.block hb
    exact ⟨r, r', hr, hr', hsame.mono hle⟩
  · obtain ⟨t, t', ht, ht', hsame⟩ := h.region hr
    exact ⟨t, t', ht, ht', hsame.mono hle⟩
  · rintro o o' (ho | ⟨rfl, rfl⟩)
    · exact h.newOp ho
    · exact .inr ⟨h.leaves.ops, h.leaves'.ops, h.size⟩
  · rw [Context.newOp, Context.newOp, Array.size_push, Array.size_push]
    have := h.size
    omega

theorem newBlock_match (h : Abreast s p ctx ctx') {row row' : Block}
    (hrow : p.SameBlock s.border row row') :
    ∃ q, p.Le q ∧ q.block ⟨ctx.blocks.size⟩ ⟨ctx'.blocks.size⟩ ∧
      Abreast s q (ctx.newBlock row) (ctx'.newBlock row') := by
  let q := p.withBlock ⟨ctx.blocks.size⟩ ⟨ctx'.blocks.size⟩ h.block_ne
  have hle : p.Le q := ⟨id, .inl, id, id⟩
  refine ⟨q, hle, .inr ⟨rfl, rfl⟩, ?_⟩
  obtain ⟨hleaves, hleaves'⟩ := h.leaves_mono hle
  refine
    { top := h.top
      op := fun ho => ?_
      block := ?_
      region := fun hr => ?_
      value := h.value
      uses := h.uses
      free := h.free
      free' := h.free'
      unused := h.unused
      unused' := h.unused'
      le := h.le.trans hle
      newOp := h.newOp
      newBlock := ?_
      newRegion := h.newRegion
      newValue := h.newValue
      leaves := hleaves.newBlock row
      leaves' := hleaves'.newBlock row'
      size := h.size }
  · obtain ⟨r, r', hr, hr', hsame⟩ := h.op ho
    exact ⟨r, r', hr, hr', hsame.mono hle⟩
  · rintro b b' (hb | ⟨rfl, rfl⟩)
    · obtain ⟨r, r', hr, hr', hsame⟩ := h.block hb
      exact ⟨r, r', block_newBlock hr row, block_newBlock hr' row', hsame.mono hle⟩
    · exact ⟨row, row', block_newBlock_self row, block_newBlock_self row', hrow.mono hle⟩
  · obtain ⟨t, t', ht, ht', hsame⟩ := h.region hr
    exact ⟨t, t', ht, ht', hsame.mono hle⟩
  · rintro b b' (hb | ⟨rfl, rfl⟩)
    · exact h.newBlock hb
    · exact .inr ⟨h.leaves.blocks, h.leaves'.blocks⟩

theorem newRegion_match (h : Abreast s p ctx ctx') {row row' : Region}
    (hrow : p.SameRegion row row') :
    ∃ q, p.Le q ∧ q.region ⟨ctx.regions.size⟩ ⟨ctx'.regions.size⟩ ∧
      Abreast s q (ctx.newRegion row) (ctx'.newRegion row') := by
  let q := p.withRegion ⟨ctx.regions.size⟩ ⟨ctx'.regions.size⟩ h.region_ne
  have hle : p.Le q := ⟨id, id, .inl, id⟩
  refine ⟨q, hle, .inr ⟨rfl, rfl⟩, ?_⟩
  obtain ⟨hleaves, hleaves'⟩ := h.leaves_mono hle
  refine
    { top := h.top
      op := fun ho => ?_
      block := fun hb => ?_
      region := ?_
      value := h.value
      uses := h.uses
      free := h.free
      free' := h.free'
      unused := h.unused
      unused' := h.unused'
      le := h.le.trans hle
      newOp := h.newOp
      newBlock := h.newBlock
      newRegion := ?_
      newValue := h.newValue
      leaves := hleaves.newRegion row
      leaves' := hleaves'.newRegion row'
      size := h.size }
  · obtain ⟨r, r', hr, hr', hsame⟩ := h.op ho
    exact ⟨r, r', hr, hr', hsame.mono hle⟩
  · obtain ⟨r, r', hr, hr', hsame⟩ := h.block hb
    exact ⟨r, r', hr, hr', hsame.mono hle⟩
  · rintro r r' (hr | ⟨rfl, rfl⟩)
    · obtain ⟨t, t', ht, ht', hsame⟩ := h.region hr
      exact ⟨t, t', region_newRegion ht row, region_newRegion ht' row', hsame.mono hle⟩
    · exact ⟨row, row', region_newRegion_self row, region_newRegion_self row', hrow.mono hle⟩
  · rintro r r' (hr | ⟨rfl, rfl⟩)
    · exact h.newRegion hr
    · exact .inr ⟨h.leaves.regions, h.leaves'.regions⟩

theorem addValues_match (h : Abreast s p ctx ctx') (source source' : Nat → ValueDef)
    {types types' : List TypeRef} (htypes : List.Forall₂ s.border.type types types') :
    ∃ q, p.Le q ∧ List.Forall₂ q.value (ctx.nextValues types.length)
        (ctx'.nextValues types'.length) ∧
      Abreast s q (ctx.addValues source types) (ctx'.addValues source' types') := by
  let q := p.withValues ctx.values.size ctx'.values.size types.length h.value_lt
  have hle : p.Le q := ⟨id, id, id, .inl⟩
  refine ⟨q, hle, ?_, ?_⟩
  · rw [← htypes.length_eq, Context.nextValues, Context.nextValues, List.forall₂_map_left_iff,
      List.forall₂_map_right_iff, List.forall₂_same]
    exact fun i hi => .inr ⟨i, List.mem_range.1 hi, rfl, rfl⟩
  obtain ⟨hleaves, hleaves'⟩ := h.leaves_mono hle
  refine
    { top := h.top
      op := fun ho => ?_
      block := fun hb => ?_
      region := fun hr => ?_
      value := ?_
      uses := ?_
      free := fun hv => ?_
      free' := fun hv => ?_
      unused := fun hv => ?_
      unused' := fun hv => ?_
      le := h.le.trans hle
      newOp := h.newOp
      newBlock := h.newBlock
      newRegion := h.newRegion
      newValue := ?_
      leaves := hleaves.addValues source types
      leaves' := hleaves'.addValues source' types'
      size := h.size }
  · obtain ⟨r, r', hr, hr', hsame⟩ := h.op ho
    exact ⟨r, r', hr, hr', hsame.mono hle⟩
  · obtain ⟨r, r', hr, hr', hsame⟩ := h.block hb
    exact ⟨r, r', hr, hr', hsame.mono hle⟩
  · obtain ⟨t, t', ht, ht', hsame⟩ := h.region hr
    exact ⟨t, t', ht, ht', hsame.mono hle⟩
  · rintro v v' (hv | ⟨i, hi, rfl, rfl⟩)
    · obtain ⟨row, row', hrow, hrow', htype⟩ := h.value hv
      exact ⟨row, row', value_addValues hrow source types, value_addValues hrow' source' types',
        htype⟩
    · have hi' : i < types'.length := htypes.length_eq ▸ hi
      exact ⟨_, _, value_addValues_new source (List.getElem?_eq_getElem hi),
        value_addValues_new source' (List.getElem?_eq_getElem hi'), htypes.get hi hi'⟩
  · rintro v v' (hv | ⟨i, hi, rfl, rfl⟩)
    · exact h.uses hv
    · change List.Forall₂ _ (ctx.uses.get _) (ctx'.uses.get _)
      rw [h.unused (Nat.le_add_right _ _), h.unused' (Nat.le_add_right _ _)]
      exact .nil
  · obtain ⟨hlt, hfree⟩ := h.free hv
    refine ⟨by rw [size_addValues]; omega, ?_⟩
    rintro ⟨v', hv' | ⟨i, hi, rfl, rfl⟩⟩
    · exact hfree ⟨v', hv'⟩
    · exact absurd hlt (Nat.not_lt.2 (Nat.le_add_right _ _))
  · obtain ⟨hlt, hfree⟩ := h.free' hv
    refine ⟨by rw [size_addValues]; omega, ?_⟩
    rintro ⟨v', hv' | ⟨i, hi, rfl, rfl⟩⟩
    · exact hfree ⟨v', hv'⟩
    · exact absurd hlt (Nat.not_lt.2 (Nat.le_add_right _ _))
  · rw [size_addValues] at hv
    exact h.unused (Nat.le_trans (Nat.le_add_right _ _) hv)
  · rw [size_addValues] at hv
    exact h.unused' (Nat.le_trans (Nat.le_add_right _ _) hv)
  · rintro v v' (hv | ⟨i, hi, rfl, rfl⟩)
    · exact h.newValue hv
    · exact .inr ⟨Nat.le_trans h.leaves.values (Nat.le_add_right _ _),
        Nat.le_trans h.leaves'.values (Nat.le_add_right _ _)⟩

section Own

variable {o o' : OpRef} {r r' : RegionRef}

/-- An operation is made the owner of regions. -/
theorem ownRegions (h : Abreast s p ctx ctx') (ho : p.op o o') {rs rs' : List RegionRef}
    (hrs : List.Forall₂ p.region rs rs') :
    Abreast s p
      (rs.foldl (fun c r => c.modifyRegion r fun row => { row with parent := some o }) ctx)
      (rs'.foldl (fun c r => c.modifyRegion r fun row => { row with parent := some o' }) ctx') := by
  induction hrs generalizing ctx ctx' with
  | nil => exact h
  | cons hr _ ih =>
    exact ih (h.modifyRegion hr fun _ _ hrow => { hrow with parent := .some ho })

/-- A region is made the owner of blocks. -/
theorem ownBlocks (h : Abreast s p ctx ctx') (hr : p.region r r') {bs bs' : List BlockRef}
    (hbs : List.Forall₂ p.block bs bs') :
    Abreast s p
      (bs.foldl (fun c b => c.modifyBlock b fun row => { row with parent := some r }) ctx)
      (bs'.foldl (fun c b => c.modifyBlock b fun row => { row with parent := some r' }) ctx') := by
  induction hbs generalizing ctx ctx' with
  | nil => exact h
  | cons hb _ ih =>
    exact ih (h.modifyBlock hb fun _ _ hrow => { hrow with parent := .some hr })

end Own

theorem addOp (h : Abreast s p ctx ctx') {blueprint blueprint' : Blueprint}
    (hsame : p.SameBlueprint s.border blueprint blueprint') :
    ∃ q, p.Le q ∧ q.Inner s.border (ctx.addOp blueprint).2 (ctx'.addOp blueprint').2 ∧
      List.Forall₂ q.value (ctx.nextValues blueprint.resultTypes.length)
        (ctx'.nextValues blueprint'.resultTypes.length) ∧
      Abreast s q (ctx.addOp blueprint).1 (ctx'.addOp blueprint').1 := by
  obtain ⟨q₁, hle₁, hvalues, h₁⟩ := h.addValues_match (.result ⟨ctx.ops.size⟩)
    (.result ⟨ctx'.ops.size⟩) hsame.resultTypes
  have hrow : q₁.SameOp s.border ⟨ctx.ops.size⟩ (ctx.freshRow blueprint)
      (ctx'.freshRow blueprint') :=
    { toSameBlueprint := hsame.mono hle₁
      func := fun ho => absurd ho h.not_top
      results := hvalues.imp fun _ _ hv _ => hv
      erased := rfl
      parent := ⟨fun ho => absurd ho h.not_top, fun _ => .none⟩ }
  obtain ⟨q₂, hle₂, ho, h₂⟩ := h₁.newOp_match hrow
  refine ⟨q₂, hle₁.trans hle₂, ho, hvalues.imp fun _ _ => hle₂.value, ?_⟩
  have hsame₂ := hsame.mono (hle₁.trans hle₂)
  rw [addOp_fst, addOp_fst]
  exact (h₂.ownRegions ho.1 hsame₂.regions).addUses ho.1 0 hsame₂.operands

theorem addBlock (h : Abreast s p ctx ctx') (location location' : Location)
    {types types' : List TypeRef} (htypes : List.Forall₂ s.border.type types types') :
    ∃ q, p.Le q ∧ q.block (ctx.addBlock location types []).2
        (ctx'.addBlock location' types' []).2 ∧
      List.Forall₂ q.value (ctx.nextValues types.length) (ctx'.nextValues types'.length) ∧
      Abreast s q (ctx.addBlock location types []).1 (ctx'.addBlock location' types' []).1 := by
  obtain ⟨q₁, hle₁, hvalues, h₁⟩ := h.addValues_match (.argument ⟨ctx.blocks.size⟩)
    (.argument ⟨ctx'.blocks.size⟩) htypes
  have hrow : q₁.SameBlock s.border ⟨location, types, ctx.nextValues types.length, [], none⟩
      ⟨location', types', ctx'.nextValues types'.length, [], none⟩ :=
    ⟨htypes, hvalues, .nil, .none⟩
  obtain ⟨q₂, hle₂, hb, h₂⟩ := h₁.newBlock_match hrow
  exact ⟨q₂, hle₁.trans hle₂, hb, hvalues.imp fun _ _ => hle₂.value, h₂⟩

theorem addRegion (h : Abreast s p ctx ctx') (location location' : Location)
    {bs bs' : List BlockRef} (hbs : List.Forall₂ p.block bs bs') :
    ∃ q, p.Le q ∧ q.region (ctx.addRegion location bs).2 (ctx'.addRegion location' bs').2 ∧
      Abreast s q (ctx.addRegion location bs).1 (ctx'.addRegion location' bs').1 := by
  have hrow : p.SameRegion ⟨location, bs, none⟩ ⟨location', bs', none⟩ := ⟨hbs, .none⟩
  obtain ⟨q, hle, hr, h'⟩ := h.newRegion_match hrow
  exact ⟨q, hle, hr, h'.ownBlocks hr (hbs.imp fun _ _ => hle.block)⟩

/-- An operation is given another place. -/
theorem place (h : Abreast s p ctx ctx') {o o' : OpRef} (ho : p.Inner s.border o o')
    {b b' : Option BlockRef} (hb : Option.Rel p.block b b') :
    Abreast s p (ctx.modifyOp o fun row => { row with parent := b })
      (ctx'.modifyOp o' fun row => { row with parent := b' }) :=
  h.modifyOp ho.1 fun _ _ hrow =>
    { hrow with parent := ⟨fun ht => absurd ht ho.2, fun _ => hb⟩ }

/-- The operations of a block are listed anew. -/
theorem relist (h : Abreast s p ctx ctx') {b b' : BlockRef} (hb : p.block b b')
    {f f' : List OpRef → List OpRef}
    (hf : ∀ l l', List.Forall₂ (p.Inner s.border) l l' →
      List.Forall₂ (p.Inner s.border) (f l) (f' l')) :
    Abreast s p (ctx.modifyBlock b fun row => { row with ops := f row.ops })
      (ctx'.modifyBlock b' fun row => { row with ops := f' row.ops }) :=
  h.modifyBlock hb fun _ _ hrow => { hrow with ops := hf _ _ hrow.ops }

/-- Operations are marked as erased. -/
theorem erase (h : Abreast s p ctx ctx') {os os' : List OpRef} (hos : List.Forall₂ p.op os os') :
    Abreast s p (os.foldl (fun c o => c.modifyOp o fun row => { row with erased := true }) ctx)
      (os'.foldl (fun c o => c.modifyOp o fun row => { row with erased := true }) ctx') := by
  induction hos generalizing ctx ctx' with
  | nil => exact h
  | cons ho _ ih => exact ih (h.modifyOp ho fun _ _ hrow => { hrow with erased := rfl })

theorem append (h : Abreast s p ctx ctx') {b b' : BlockRef} {o o' : OpRef} (hb : p.block b b')
    (ho : p.Inner s.border o o') : Abreast s p (ctx.append b o) (ctx'.append b' o') :=
  (h.place ho (.some hb)).relist hb fun _ _ hl => List.rel_append hl (.cons ho .nil)

/-! ## What is new is apart from what there was -/

section Apart

variable {x : Extent}

theorem apart_left (h : Abreast s p ctx ctx') (hx : x.Bounded s.left)
    (hapart : s.pairing.leftPart.Apart x) (hfree : ∀ v, x.value v → ¬s.border.free v) :
    x.Apart (p.leftExtent s.border) where
  op o ho := by
    rintro ⟨o', hp⟩
    rcases h.newOp hp with hp | ⟨hle, -⟩
    · exact hapart.op o ⟨o', hp⟩ ho
    · exact Nat.not_lt.2 hle (hx.op o ho)
  block b hb := by
    rintro ⟨b', hp⟩
    rcases h.newBlock hp with hp | ⟨hle, -⟩
    · exact hapart.block b ⟨b', hp⟩ hb
    · exact Nat.not_lt.2 hle (hx.block b hb)
  region r hr := by
    rintro ⟨r', hp⟩
    rcases h.newRegion hp with hp | ⟨hle, -⟩
    · exact hapart.region r ⟨r', hp⟩ hr
    · exact Nat.not_lt.2 hle (hx.region r hr)
  value v hv := by
    rintro (⟨v', hp⟩ | hp)
    · rcases h.newValue hp with hp | ⟨hle, -⟩
      · exact hapart.value v ⟨v', hp⟩ hv
      · exact Nat.not_lt.2 hle (hx.value v hv)
    · exact hfree v hv hp

theorem apart_right (h : Abreast s p ctx ctx') (hx : x.Bounded s.right)
    (hapart : s.pairing.rightPart.Apart x) : x.Apart p.rightPart where
  op o ho := by
    rintro ⟨o', hp⟩
    rcases h.newOp hp with hp | ⟨-, hle, -⟩
    · exact hapart.op o ⟨o', hp⟩ ho
    · exact Nat.not_lt.2 hle (hx.op o ho)
  block b hb := by
    rintro ⟨b', hp⟩
    rcases h.newBlock hp with hp | ⟨-, hle⟩
    · exact hapart.block b ⟨b', hp⟩ hb
    · exact Nat.not_lt.2 hle (hx.block b hb)
  region r hr := by
    rintro ⟨r', hp⟩
    rcases h.newRegion hp with hp | ⟨-, hle⟩
    · exact hapart.region r ⟨r', hp⟩ hr
    · exact Nat.not_lt.2 hle (hx.region r hr)
  value v hv := by
    rintro ⟨v', hp⟩
    rcases h.newValue hp with hp | ⟨-, hle⟩
    · exact hapart.value v ⟨v', hp⟩ hv
    · exact Nat.not_lt.2 hle (hx.value v hv)

end Apart

end Abreast

end Offload
