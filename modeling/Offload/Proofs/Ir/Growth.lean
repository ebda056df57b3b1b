import Offload.Proofs.Ir.Scope

/-!
# Contexts that grow

Copying and building allocate rows from the inside out, and give owners to what
is new alone. The rows that were there before stay as they are (`Extends`), and
those that came in since some earlier time do so but for their owners (`Kept`).
-/

namespace Offload

namespace Context

/-- All rows stay as they are. -/
structure Extends (ctx ctx' : Context) : Prop where
  op : ∀ o row, ctx.op o = .ok row → ctx'.op o = .ok row
  block : ∀ b row, ctx.block b = .ok row → ctx'.block b = .ok row
  region : ∀ r row, ctx.region r = .ok row → ctx'.region r = .ok row
  value : ∀ v row, ctx.value v = .ok row → ctx'.value v = .ok row

/-- The rows that came in after `old` stay as they are, up to their owners. -/
structure Kept (old ctx ctx' : Context) : Prop where
  op : ∀ o row, ctx.op o = .ok row → ¬old.HasOp o →
    ∃ owner, ctx'.op o = .ok { row with parent := owner }
  block : ∀ b row, ctx.block b = .ok row → ¬old.HasBlock b →
    ∃ owner, ctx'.block b = .ok { row with parent := owner }
  region : ∀ r row, ctx.region r = .ok row → ¬old.HasRegion r →
    ∃ owner, ctx'.region r = .ok { row with parent := owner }

namespace Extends

variable {ctx ctx₁ ctx₂ : Context}

theorem refl (ctx : Context) : ctx.Extends ctx :=
  ⟨fun _ _ h => h, fun _ _ h => h, fun _ _ h => h, fun _ _ h => h⟩

theorem trans (h₁ : ctx.Extends ctx₁) (h₂ : ctx₁.Extends ctx₂) : ctx.Extends ctx₂ :=
  ⟨fun o row h => h₂.op o row (h₁.op o row h), fun b row h => h₂.block b row (h₁.block b row h),
    fun r row h => h₂.region r row (h₁.region r row h),
    fun v row h => h₂.value v row (h₁.value v row h)⟩

theorem hasOp (h : ctx.Extends ctx₁) {o : OpRef} (ho : ctx.HasOp o) : ctx₁.HasOp o := by
  obtain ⟨row, hrow⟩ := hasOp_iff.1 ho
  exact hasOp_iff.2 ⟨row, h.op o row hrow⟩

theorem hasBlock (h : ctx.Extends ctx₁) {b : BlockRef} (hb : ctx.HasBlock b) :
    ctx₁.HasBlock b := by
  obtain ⟨row, hrow⟩ := hasBlock_iff.1 hb
  exact hasBlock_iff.2 ⟨row, h.block b row hrow⟩

theorem hasRegion (h : ctx.Extends ctx₁) {r : RegionRef} (hr : ctx.HasRegion r) :
    ctx₁.HasRegion r := by
  obtain ⟨row, hrow⟩ := hasRegion_iff.1 hr
  exact hasRegion_iff.2 ⟨row, h.region r row hrow⟩

theorem readOp {α : Type} (h : ctx.Extends ctx₁) {o : OpRef} (ho : ctx.HasOp o)
    (f : Operation → α) (default : α) : ctx₁.readOp f default o = ctx.readOp f default o := by
  obtain ⟨row, hrow⟩ := hasOp_iff.1 ho
  rw [readOp_of_op hrow, readOp_of_op (h.op o row hrow)]

theorem readBlock {α : Type} (h : ctx.Extends ctx₁) {b : BlockRef} (hb : ctx.HasBlock b)
    (f : Block → α) (default : α) :
    ctx₁.readBlock f default b = ctx.readBlock f default b := by
  obtain ⟨row, hrow⟩ := hasBlock_iff.1 hb
  rw [readBlock_of_block hrow, readBlock_of_block (h.block b row hrow)]

theorem readRegion {α : Type} (h : ctx.Extends ctx₁) {r : RegionRef} (hr : ctx.HasRegion r)
    (f : Region → α) (default : α) :
    ctx₁.readRegion f default r = ctx.readRegion f default r := by
  obtain ⟨row, hrow⟩ := hasRegion_iff.1 hr
  rw [readRegion_of_region hrow, readRegion_of_region (h.region r row hrow)]

theorem kept (h : ctx.Extends ctx₁) (old : Context) : Kept old ctx ctx₁ :=
  ⟨fun o row hrow _ => ⟨row.parent, h.op o row hrow⟩,
    fun b row hrow _ => ⟨row.parent, h.block b row hrow⟩,
    fun r row hrow _ => ⟨row.parent, h.region r row hrow⟩⟩

end Extends

namespace Kept

variable {old old' ctx ctx₁ ctx₂ : Context}

theorem trans (h₁ : Kept old ctx ctx₁) (h₂ : Kept old ctx₁ ctx₂) : Kept old ctx ctx₂ := by
  refine ⟨fun o row hrow hn => ?_, fun b row hrow hn => ?_, fun r row hrow hn => ?_⟩
  · obtain ⟨_, h⟩ := h₁.op o row hrow hn
    obtain ⟨owner, h⟩ := h₂.op o _ h hn
    exact ⟨owner, h⟩
  · obtain ⟨_, h⟩ := h₁.block b row hrow hn
    obtain ⟨owner, h⟩ := h₂.block b _ h hn
    exact ⟨owner, h⟩
  · obtain ⟨_, h⟩ := h₁.region r row hrow hn
    obtain ⟨owner, h⟩ := h₂.region r _ h hn
    exact ⟨owner, h⟩

theorem mono (h : Kept old ctx ctx₁) (hop : ∀ o, old.HasOp o → old'.HasOp o)
    (hblock : ∀ b, old.HasBlock b → old'.HasBlock b)
    (hregion : ∀ r, old.HasRegion r → old'.HasRegion r) : Kept old' ctx ctx₁ :=
  ⟨fun o row hrow hn => h.op o row hrow (hn ∘ hop o),
    fun b row hrow hn => h.block b row hrow (hn ∘ hblock b),
    fun r row hrow hn => h.region r row hrow (hn ∘ hregion r)⟩

theorem extend (h : Kept old ctx ctx₁) (hold : old.Extends old') : Kept old' ctx ctx₁ :=
  h.mono (fun _ => hold.hasOp) (fun _ => hold.hasBlock) fun _ => hold.hasRegion

end Kept

/-! ### What is new -/

/-- An operation was made on the way, and is free. -/
def MadeOp (ctx ctx' : Context) (o : OpRef) : Prop :=
  ¬ctx.HasOp o ∧ ctx'.HasOp o ∧ ctx'.blockOf o = none

/-- A block was made on the way, and is free. -/
def MadeBlock (ctx ctx' : Context) (b : BlockRef) : Prop :=
  ¬ctx.HasBlock b ∧ ctx'.HasBlock b ∧ ctx'.regionOf b = none

/-- A region was made on the way, and is free. -/
def MadeRegion (ctx ctx' : Context) (r : RegionRef) : Prop :=
  ¬ctx.HasRegion r ∧ ctx'.HasRegion r ∧ ctx'.ownerOf r = none

section Made

variable {ctx ctx₁ ctx₂ ctx₃ : Context}

theorem MadeBlock.widen {b : BlockRef} (h : MadeBlock ctx₁ ctx₂ b) (h₁ : ctx.Extends ctx₁)
    (h₃ : ctx₂.Extends ctx₃) : MadeBlock ctx ctx₃ b :=
  ⟨fun hb => h.1 (h₁.hasBlock hb), h₃.hasBlock h.2.1, (h₃.readBlock h.2.1 _ _).trans h.2.2⟩

theorem MadeRegion.widen {r : RegionRef} (h : MadeRegion ctx₁ ctx₂ r) (h₁ : ctx.Extends ctx₁)
    (h₃ : ctx₂.Extends ctx₃) : MadeRegion ctx ctx₃ r :=
  ⟨fun hr => h.1 (h₁.hasRegion hr), h₃.hasRegion h.2.1, (h₃.readRegion h.2.1 _ _).trans h.2.2⟩

end Made

/-! ### Allocation -/

section Allocation

variable {old ctx : Context} {blueprint : Blueprint} {location : Location}
  {argTypes : List TypeRef} {blocks : List BlockRef}

theorem value_of_append {rows : Array Value} {v : ValueRef} {row : Value}
    (h : ctx.value v = .ok row) (hvalues : ∃ more, rows = ctx.values ++ more) :
    rows[v.index]? = some row := by
  obtain ⟨more, rfl⟩ := hvalues
  have hrow := value_eq_ok.1 h
  rw [Array.getElem?_append_left (Array.getElem?_eq_some_iff.1 hrow).1, hrow]

theorem extends_addBlock : ctx.Extends (ctx.addBlock location argTypes []).1 where
  op o row h := by
    rw [op_iff_readOp] at h ⊢
    rwa [readOp_addBlock, if_neg List.not_mem_nil]
  block b row h := by
    have hne : b ≠ ⟨ctx.blocks.size⟩ := by
      rintro rfl
      exact not_hasBlock_size (hasBlock_iff.2 ⟨row, h⟩)
    rw [block_iff_readBlock] at h ⊢
    rwa [readBlock_addBlock, if_neg hne]
  region r row h := by
    rw [region_iff_readRegion] at h ⊢
    rwa [readRegion_addBlock]
  value v row h := value_eq_ok.2 (value_of_append h ⟨_, by simp only [addBlock, addValues]; rfl⟩)

/-- A new region leaves all rows as they are but for those of its blocks. -/
theorem Extends.addRegion (h : old.Extends ctx) (hnew : ∀ b ∈ blocks, ¬old.HasBlock b) :
    old.Extends (ctx.addRegion location blocks).1 where
  op o row hrow := by
    have := op_iff_readOp.1 (h.op o row hrow)
    rwa [op_iff_readOp, readOp_addRegion]
  block b row hrow := by
    have := block_iff_readBlock.1 (h.block b row hrow)
    rwa [block_iff_readBlock, readBlock_addRegion,
      if_neg fun hb => hnew b hb (hasBlock_iff.2 ⟨row, hrow⟩)]
  region r row hrow := by
    have hrow := h.region r row hrow
    have hne : r ≠ ⟨ctx.regions.size⟩ := by
      rintro rfl
      exact not_hasRegion_size (hasRegion_iff.2 ⟨row, hrow⟩)
    rw [region_iff_readRegion] at hrow ⊢
    rwa [readRegion_addRegion, if_neg hne]
  value v row hrow := by
    have := h.value v row hrow
    simpa only [Context.addRegion, foldl_modifyBlock, Context.value] using this

theorem kept_addRegion : Kept old ctx (ctx.addRegion location blocks).1 where
  op o row hrow _ := ⟨row.parent, by
    have := op_iff_readOp.1 hrow
    rwa [op_iff_readOp, readOp_addRegion]⟩
  block b row hrow _ := by
    simp only [block_iff_readBlock, readBlock_addRegion]
    split
    · exact ⟨_, by rw [readBlock_of_block hrow]⟩
    · exact ⟨row.parent, block_iff_readBlock.1 hrow⟩
  region r row hrow _ := by
    have hne : r ≠ ⟨ctx.regions.size⟩ := by
      rintro rfl
      exact not_hasRegion_size (hasRegion_iff.2 ⟨row, hrow⟩)
    exact ⟨row.parent, by
      rw [region_iff_readRegion, readRegion_addRegion, if_neg hne, region_iff_readRegion.1 hrow]⟩

/-- A new operation leaves all rows as they are but for those of its regions. -/
theorem Extends.addOp (h : old.Extends ctx) (hnew : ∀ r ∈ blueprint.regions, ¬old.HasRegion r) :
    old.Extends (ctx.addOp blueprint).1 where
  op o row hrow := by
    have hrow := h.op o row hrow
    have hne : o ≠ ⟨ctx.ops.size⟩ := by
      rintro rfl
      exact not_hasOp_size (hasOp_iff.2 ⟨row, hrow⟩)
    rw [op_iff_readOp] at hrow ⊢
    rwa [readOp_addOp, if_neg hne]
  block b row hrow := by
    have := block_iff_readBlock.1 (h.block b row hrow)
    rwa [block_iff_readBlock, readBlock_addOp]
  region r row hrow := by
    have := region_iff_readRegion.1 (h.region r row hrow)
    rwa [region_iff_readRegion, readRegion_addOp,
      if_neg fun hr => hnew r hr (hasRegion_iff.2 ⟨row, hrow⟩)]
  value v row hrow := value_eq_ok.2 (value_of_append (h.value v row hrow)
    ⟨_, by simp only [Context.addOp, foldl_modifyRegion, addValues]; rfl⟩)

theorem kept_addOp : Kept old ctx (ctx.addOp blueprint).1 where
  op o row hrow _ := by
    have hne : o ≠ ⟨ctx.ops.size⟩ := by
      rintro rfl
      exact not_hasOp_size (hasOp_iff.2 ⟨row, hrow⟩)
    exact ⟨row.parent, by
      rw [op_iff_readOp, readOp_addOp, if_neg hne, op_iff_readOp.1 hrow]⟩
  block b row hrow _ := ⟨row.parent, by
    have := block_iff_readBlock.1 hrow
    rwa [block_iff_readBlock, readBlock_addOp]⟩
  region r row hrow _ := by
    simp only [region_iff_readRegion, readRegion_addOp]
    split
    · exact ⟨_, by rw [readRegion_of_region hrow]⟩
    · exact ⟨row.parent, region_iff_readRegion.1 hrow⟩

section Append

variable {b : BlockRef} {o : OpRef}

theorem op_append (p : OpRef) : (ctx.append b o).op p = if p = o then
    (fun row : Operation => { row with parent := some b }) <$> ctx.op p else ctx.op p := by
  simp only [append, modifyBlock, modifyOp, op, Array.getElem?_modify, OpRef.index_inj,
    eq_comm (a := o)]
  split
  · cases ctx.ops[p.index]? <;> rfl
  · rfl

theorem block_append (c : BlockRef) : (ctx.append b o).block c = if c = b then
    (fun row : Block => { row with ops := row.ops ++ [o] }) <$> ctx.block c else ctx.block c := by
  simp only [append, modifyBlock, modifyOp, block, Array.getElem?_modify, BlockRef.index_inj,
    eq_comm (a := b)]
  split
  · cases ctx.blocks[c.index]? <;> rfl
  · rfl

/-- A listed operation leaves all rows as they are but its own and that of the
    block. -/
theorem Extends.append (h : old.Extends ctx) (hb : ¬old.HasBlock b) (ho : ¬old.HasOp o) :
    old.Extends (ctx.append b o) where
  op p row hrow := by
    rw [op_append, if_neg, h.op p row hrow]
    rintro rfl
    exact ho (hasOp_iff.2 ⟨row, hrow⟩)
  block c row hrow := by
    rw [block_append, if_neg, h.block c row hrow]
    rintro rfl
    exact hb (hasBlock_iff.2 ⟨row, hrow⟩)
  region := h.region
  value := h.value

theorem kept_append (hb : old.HasBlock b) : Kept old ctx (ctx.append b o) where
  op p row hrow _ := by
    simp only [op_append, hrow]
    split
    · exact ⟨_, rfl⟩
    · exact ⟨row.parent, rfl⟩
  block c row hrow hn := by
    refine ⟨row.parent, ?_⟩
    rw [block_append, if_neg, hrow]
    rintro rfl
    exact hn hb
  region r row hrow _ := ⟨row.parent, hrow⟩

end Append

end Allocation

end Context

end Offload
