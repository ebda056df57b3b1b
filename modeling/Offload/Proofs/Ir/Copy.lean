import Mathlib.Data.List.Forall2
import Offload.Ir.Clone
import Offload.Proofs.Ir.Loose
import Offload.Proofs.Kind

/-!
# Copies

A clone is a tree of fresh rows that mirrors the tree of the operation, with its
values renamed (`CopyOf`) and its locations kept (`Located`). The renaming is the
map at the end of the work. An operand is renamed by the map as it was when its
operation was copied, but this is the same: what is in scope at an operation has
been copied before, or lies outside the tree, where nothing is ever mapped.

Copying goes through operations, regions and blocks, and so does the proof. At
each level the statement is about a *piece* of the source, given by the values
that belong to it: the rows from before stay (`Extends`), the map changes at the
values of the piece alone and sends them to fresh values, each to another one
(`Copied`), and the copy mirrors the piece in any later context that keeps the
rows that were made (`Kept`).
-/

namespace Offload

/-! ## Maps of values -/

namespace ValueMap

variable {m : ValueMap} {v w : ValueRef} {vs ws : List ValueRef}

/-- A value is mapped to itself or to what an entry has for it. -/
theorem apply_cases : m.apply v = v ∨ m.apply v ∈ m.entries.map Prod.snd := by
  rw [apply]
  rcases h : m.entries.lookup v with _ | w
  · exact .inl rfl
  · obtain ⟨before, after, heq, -⟩ := List.lookup_eq_some_iff.1 h
    rw [heq]
    exact .inr (by simp)

theorem apply_insert (u : ValueRef) : (m.insert v w).apply u = if u = v then w else m.apply u := by
  rw [insert, apply, List.lookup_cons]
  by_cases h : u = v
  · simp [h]
  · have hlookup : (m.entries.filter (·.1 ≠ v)).lookup u = m.entries.lookup u := by
      induction m.entries with
      | nil => rfl
      | cons entry entries ih =>
        rw [List.filter_cons]
        by_cases he : entry.1 = v
        · have hne : (u == entry.1) = false := by simpa [he] using h
          rw [if_neg (by simpa using he), ih, List.lookup_cons, hne]
        · rw [if_pos (by simpa using he), List.lookup_cons, List.lookup_cons, ih]
    rw [if_neg h, beq_eq_false_iff_ne.2 h, hlookup, apply]

/-- The values that are mapped. -/
def keys (m : ValueMap) : List ValueRef := m.entries.map Prod.fst

theorem mem_keys_insert {u : ValueRef} : u ∈ (m.insert v w).keys ↔ u = v ∨ u ∈ m.keys := by
  simp only [keys, insert, List.map_cons, List.mem_cons, List.mem_map, List.mem_filter]
  refine or_congr_right' fun hu => exists_congr fun e => and_congr_left fun he => ?_
  simp [he, hu]

theorem insertAll_cons : m.insertAll (v :: vs) (w :: ws) = (m.insert v w).insertAll vs ws := rfl

theorem apply_insertAll_of_not_mem (h : v ∉ vs) : (m.insertAll vs ws).apply v = m.apply v := by
  induction vs generalizing m ws with
  | nil => rfl
  | cons u vs ih =>
    cases ws with
    | nil => rfl
    | cons w ws =>
      rw [List.mem_cons, not_or] at h
      rw [insertAll_cons, ih h.2, apply_insert, if_neg h.1]

theorem apply_insertAll_cases (m : ValueMap) (v : ValueRef) (vs ws : List ValueRef) :
    (m.insertAll vs ws).apply v = m.apply v ∨ (m.insertAll vs ws).apply v ∈ ws := by
  induction vs generalizing m ws with
  | nil => exact .inl rfl
  | cons u vs ih =>
    rcases ws with _ | ⟨w, ws⟩
    · exact .inl rfl
    rw [insertAll_cons]
    obtain heq | hmem := ih (m.insert u w) ws
    · rw [heq, apply_insert]
      split
      · exact .inr List.mem_cons_self
      · exact .inl rfl
    · exact .inr (List.mem_cons_of_mem w hmem)

theorem mem_keys_insertAll {u : ValueRef} (hlength : vs.length = ws.length) :
    u ∈ (m.insertAll vs ws).keys ↔ u ∈ vs ∨ u ∈ m.keys := by
  induction vs generalizing m ws with
  | nil => exact (or_iff_right List.not_mem_nil).symm
  | cons v vs ih =>
    cases ws with
    | nil => cases hlength
    | cons w ws =>
      rw [insertAll_cons, ih (Nat.succ.inj hlength), mem_keys_insert, List.mem_cons]
      tauto

theorem map_apply_insertAll (m : ValueMap) (ws : List ValueRef) (hnodup : vs.Nodup)
    (hlength : vs.length = ws.length) :
    vs.map (m.insertAll vs ws).apply = ws := by
  induction vs generalizing m ws with
  | nil => exact (List.length_eq_zero_iff.1 hlength.symm).symm
  | cons u vs ih =>
    cases ws with
    | nil => cases hlength
    | cons w ws =>
      obtain ⟨hu, hnodup⟩ := List.nodup_cons.1 hnodup
      rw [List.map_cons, insertAll_cons, apply_insertAll_of_not_mem hu, apply_insert, if_pos rfl,
        ih _ _ hnodup (Nat.succ.inj hlength)]

end ValueMap

open Context

/-! ## What a copy is -/

/-- What comes earlier than an operation in the tree of `top`, or lies outside the
    tree. -/
def Visible (source : Context) (top o : OpRef) (v : ValueRef) : Prop :=
  source.Earlier o v ∨ ¬source.DefinedWithin top v

theorem Visible.not_definedWithin {source : Context} (h : source.Sound) {top o : OpRef}
    {v : ValueRef} (hv : Visible source top o v) (ho : source.Within o top) :
    ¬source.DefinedWithin o v := by
  rcases hv with hv | hv
  · exact h.not_definedWithin_of_earlier hv
  · exact fun ⟨d, hd, hw⟩ => hv ⟨d, hd, hw.trans ho⟩

section CopyOf

variable (source : Context) (top : OpRef) (σ : ValueRef → ValueRef) (ctx : Context)

/-- A block that mirrors one of the source, given when an operation does. -/
structure BlockCopy (source : Context) (σ : ValueRef → ValueRef) (ctx : Context)
    (copyOf : OpRef → OpRef → Prop) (b b' : BlockRef) : Prop where
  isNew : ¬source.HasBlock b'
  hasBlock : ctx.HasBlock b'
  types : ctx.argTypesOf b' = source.argTypesOf b
  args : ctx.args b' = (source.args b).map σ
  ops : List.Forall₂ copyOf (source.opsOf b) (ctx.opsOf b')

/-- A region that mirrors one of the source. -/
structure RegionCopy (source : Context) (σ : ValueRef → ValueRef) (ctx : Context)
    (copyOf : OpRef → OpRef → Prop) (r r' : RegionRef) : Prop where
  isNew : ¬source.HasRegion r'
  hasRegion : ctx.HasRegion r'
  blocks : List.Forall₂ (BlockCopy source σ ctx copyOf) (source.blocksOf r) (ctx.blocksOf r')

/-- An operation that mirrors one of the source, in the tree of `top`, but for what is
    nested in them. Its operands do so if they are all visible. -/
structure OpCopy (o o' : OpRef) : Prop where
  isNew : ¬source.HasOp o'
  hasOp : ctx.HasOp o'
  kind : ctx.kindOf o' = source.kindOf o
  attributes : ctx.attributesOf o' = source.attributesOf o
  types : ctx.resultTypesOf o' = source.resultTypesOf o
  results : ctx.results o' = (source.results o).map σ
  live : ctx.isErased o' = false
  count : (ctx.operandsOf o').length = (source.operandsOf o).length
  operands : (∀ v ∈ source.operandsOf o, Visible source top o v) →
    ctx.operandsOf o' = (source.operandsOf o).map σ

/-- An operation that mirrors one of the source in which operations are nested at
    most `n` deep. -/
def CopyOf : (n : Nat) → OpRef → OpRef → Prop
  | 0, _, _ => False
  | n + 1, o, o' => OpCopy source top σ ctx o o' ∧
      List.Forall₂ (RegionCopy source σ ctx (CopyOf n)) (source.regionsOf o) (ctx.regionsOf o')

end CopyOf

section Located

variable (source ctx : Context)

/-- A block with the location of one of the source, given when an operation is like that. -/
structure BlockLocated (located : OpRef → OpRef → Prop) (b b' : BlockRef) : Prop where
  location : ctx.readBlock (·.location) default b' = source.readBlock (·.location) default b
  ops : List.Forall₂ located (source.opsOf b) (ctx.opsOf b')

/-- A region with the location of one of the source. -/
structure RegionLocated (located : OpRef → OpRef → Prop) (r r' : RegionRef) : Prop where
  location : ctx.readRegion (·.location) default r' = source.readRegion (·.location) default r
  blocks : List.Forall₂ (BlockLocated source ctx located) (source.blocksOf r) (ctx.blocksOf r')

/-- An operation with the locations of one of the source, in which operations are nested
    at most `n` deep. -/
def Located : (n : Nat) → OpRef → OpRef → Prop
  | 0, _, _ => False
  | n + 1, o, o' => ctx.readOp (·.location) default o' = source.readOp (·.location) default o ∧
      List.Forall₂ (RegionLocated source ctx (Located n)) (source.regionsOf o) (ctx.regionsOf o')

end Located

/-- A copy that has the locations of what it mirrors. -/
def LocatedCopy (source : Context) (top : OpRef) (σ : ValueRef → ValueRef) (ctx : Context)
    (n : Nat) (o o' : OpRef) : Prop :=
  CopyOf source top σ ctx n o o' ∧ Located source ctx n o o'

/-! ## Pieces -/

/-- The values of a piece, and no others, have been mapped: to fresh ones, each to another. -/
structure Copied (D : ValueRef → Prop) (s s' : Cloning) : Prop where
  size : s.context.values.size ≤ s'.context.values.size
  frame : ∀ v, ¬D v → s'.map.apply v = s.map.apply v
  fresh : ∀ v, D v → s.context.values.size ≤ (s'.map.apply v).index ∧
    (s'.map.apply v).index < s'.context.values.size
  injective : ∀ v w, D v → D w → s'.map.apply v = s'.map.apply w → v = w
  keys : ∀ v, v ∈ s'.map.keys ↔ D v ∨ v ∈ s.map.keys
  types : s'.context.types = s.context.types
  paths : s'.context.paths = s.context.paths

namespace Copied

variable {D E : ValueRef → Prop} {s s₁ s₂ : Cloning}

theorem refl (s : Cloning) : Copied (fun _ => False) s s :=
  ⟨Nat.le_refl _, fun _ _ => rfl, fun _ h => h.elim, fun _ _ h => h.elim,
    fun _ => (or_iff_right id).symm, rfl, rfl⟩

theorem congr (h : Copied D s s₁) (hiff : ∀ v, E v ↔ D v) : Copied E s s₁ := by
  rwa [show E = D from funext fun v => propext (hiff v)]

/-- Two pieces are one. -/
theorem trans (h₁ : Copied D s s₁) (h₂ : Copied E s₁ s₂) :
    Copied (fun v => D v ∨ E v) s s₂ where
  size := h₁.size.trans h₂.size
  frame v hv := by
    rw [not_or] at hv
    rw [h₂.frame v hv.2, h₁.frame v hv.1]
  fresh v hv := by
    have := h₁.size
    have := h₂.size
    by_cases hE : E v
    · have := h₂.fresh v hE
      omega
    · have hf := h₁.fresh v (hv.resolve_right hE)
      rw [h₂.frame v hE]
      omega
  injective v w hv hw e := by
    -- the values of the second piece go above those of the first
    have hlt (v w : ValueRef) (hv : ¬E v) (hDv : D v) (hw : E w) :
        s₂.map.apply v ≠ s₂.map.apply w := fun e => by
      have h₁ := (h₁.fresh v hDv).2
      have h₂' := (h₂.fresh w hw).1
      rw [← e, h₂.frame v hv] at h₂'
      omega
    by_cases hEv : E v <;> by_cases hEw : E w
    · exact h₂.injective v w hEv hEw e
    · exact absurd e.symm (hlt w v hEw (hw.resolve_right hEw) hEv)
    · exact absurd e (hlt v w hEv (hv.resolve_right hEv) hEw)
    · rw [h₂.frame v hEv, h₂.frame w hEw] at e
      exact h₁.injective v w (hv.resolve_right hEv) (hw.resolve_right hEw) e
  keys v := by
    rw [h₂.keys, h₁.keys]
    tauto
  types := h₂.types.trans h₁.types
  paths := h₂.paths.trans h₁.paths

end Copied

/-- A copy mirrors a piece with the values `D`, by any renaming that agrees with the map
    on the piece and on what is visible from outside it. -/
def Mirrors (visible D : ValueRef → Prop) (s s' : Cloning)
    (mirror : (ValueRef → ValueRef) → Context → Prop) : Prop :=
  ∀ σ, (∀ v, D v → σ v = s'.map.apply v) → (∀ v, visible v → σ v = s.map.apply v) →
    ∀ ctx, Kept s.context s'.context ctx → mirror σ ctx

/-- The state of copying from a source. -/
structure Ready (source : Context) (s : Cloning) : Prop where
  «extends» : source.Extends s.context
  sound : s.context.Sound

namespace Clone

/-! ## Lists of pieces -/

section Lists

variable {α β : Type} {source : Context} {f : α → CloneM β}

theorem run_mapM_cons {x : α} {xs : List α} {s s' : Cloning} {ys : List β}
    (hrun : ((x :: xs).mapM f).run s = .ok (ys, s')) :
    ∃ y s₁ ys', (f x).run s = .ok (y, s₁) ∧ (xs.mapM f).run s₁ = .ok (ys', s') ∧
      ys = y :: ys' := by
  simp only [List.mapM_cons, StateT.run_bind, Outcome.bind_eq_ok, Prod.exists, StateT.run_pure,
    Outcome.pure_eq_ok, Prod.mk.injEq] at hrun
  obtain ⟨y, s₁, hy, ys', s₂, hys, rfl, rfl⟩ := hrun
  exact ⟨y, s₁, ys', hy, hys, rfl⟩

/-- Pieces that are copied one after the other. What is `made` by a step is new, and
    stays made. -/
theorem mapM_spec (D : α → ValueRef → Prop) (visible : ValueRef → Prop)
    (mirror : (ValueRef → ValueRef) → Context → α → β → Prop)
    (made : Context → Context → β → Prop) {xs : List α}
    (hmono : ∀ c c₁ c₂ c₃ y, c.Extends c₁ → made c₁ c₂ y → c₂.Extends c₃ → made c c₃ y)
    (hnew : ∀ c c₁ c₂ y, made c c₁ y → ¬made c₁ c₂ y)
    (hvisible : ∀ x ∈ xs, ∀ v, visible v → ¬D x v)
    (hstep : ∀ x ∈ xs, ∀ s y s', Ready source s → (f x).run s = .ok (y, s') →
      s.context.Extends s'.context ∧ s'.context.Sound ∧ Copied (D x) s s' ∧
        made s.context s'.context y ∧ Mirrors visible (D x) s s' fun σ ctx => mirror σ ctx x y)
    (hdisjoint : xs.Pairwise fun x y => ∀ v, D x v → ¬D y v) {s s' : Cloning} {ys : List β}
    (hs : Ready source s) (hrun : (xs.mapM f).run s = .ok (ys, s')) :
    s.context.Extends s'.context ∧ s'.context.Sound ∧ Copied (fun v => ∃ x ∈ xs, D x v) s s' ∧
      (∀ y ∈ ys, made s.context s'.context y) ∧ ys.Nodup ∧
      Mirrors visible (fun v => ∃ x ∈ xs, D x v) s s' fun σ ctx =>
        List.Forall₂ (mirror σ ctx) xs ys := by
  induction xs generalizing s ys with
  | nil =>
    simp only [List.mapM_nil, StateT.run_pure, Outcome.pure_eq_ok, Prod.mk.injEq] at hrun
    obtain ⟨rfl, rfl⟩ := hrun
    exact ⟨.refl _, hs.sound, (Copied.refl s).congr (by simp), by simp, List.nodup_nil,
      fun σ _ _ ctx _ => .nil⟩
  | cons x xs ih =>
    obtain ⟨y, s₁, ys, hy, hys, rfl⟩ := run_mapM_cons hrun
    obtain ⟨hx, hdisjoint⟩ := List.pairwise_cons.1 hdisjoint
    obtain ⟨hext₁, hsound₁, hcopied₁, hmade₁, hmirror₁⟩ := hstep x List.mem_cons_self s y s₁ hs hy
    obtain ⟨hext₂, hsound₂, hcopied₂, hmade₂, hnodup, hmirror₂⟩ :=
      ih (fun z hz => hvisible z (List.mem_cons_of_mem x hz))
        (fun z hz => hstep z (List.mem_cons_of_mem x hz)) hdisjoint
        ⟨hs.extends.trans hext₁, hsound₁⟩ hys
    have hxs (v : ValueRef) (hv : D x v) : ¬∃ z ∈ xs, D z v := by
      rintro ⟨z, hz, hvz⟩
      exact hx z hz v hv hvz
    refine ⟨hext₁.trans hext₂, hsound₂, (hcopied₁.trans hcopied₂).congr (by simp),
      List.forall_mem_cons.2 ⟨hmono _ _ _ _ y (.refl _) hmade₁ hext₂,
        fun z hz => hmono _ _ _ _ z hext₁ (hmade₂ z hz) (.refl _)⟩,
      List.nodup_cons.2 ⟨fun hm => hnew _ _ _ y hmade₁ (hmade₂ y hm), hnodup⟩,
      fun σ hσ houter ctx hkept =>
        .cons (hmirror₁ σ (fun v hv => ?_) houter ctx ?_)
          (hmirror₂ σ (fun v hv => ?_) (fun v hv => ?_) ctx ?_)⟩
    · rw [hσ v ⟨x, List.mem_cons_self, hv⟩, hcopied₂.frame v (hxs v hv)]
    · exact (hext₂.kept _).trans hkept
    · obtain ⟨z, hz, hv⟩ := hv
      exact hσ v ⟨z, List.mem_cons_of_mem x hz, hv⟩
    · rw [houter v hv, hcopied₁.frame v (hvisible x List.mem_cons_self v hv)]
    · exact hkept.extend hext₁

end Lists

/-! ## What the steps do -/

theorem block_eq_ok {op : OpRef → CloneM OpRef} {b copy : BlockRef} {s s' : Cloning}
    (hrun : (block op b).run s = .ok (copy, s')) :
    ∃ row, s.context.block b = .ok row ∧ copy = ⟨s.context.blocks.size⟩ ∧
      (forIn row.ops PUnit.unit fun o _ => do
          let o' ← op o
          onContext fun ctx => (ctx.append copy o', ())
          pure (ForInStep.yield PUnit.unit)).run
        { context := (s.context.addBlock row.location row.argTypes []).1
          map := s.map.insertAll row.args (s.context.nextValues row.argTypes.length) } =
        .ok (PUnit.unit, s') := by
  simp only [block, StateT.run_bind, StateT.run_get, Outcome.bind_eq_ok, Outcome.pure_eq_ok,
    Prod.exists, StateT.run_pure, onContext, StateT.run_modifyGet, StateT.run_monadLift,
    Prod.mk.injEq, record, StateT.run_modify] at hrun
  obtain ⟨_, _, ⟨rfl, rfl⟩, _, _, ⟨row, hrow, rfl, rfl⟩, b', _, ⟨rfl, rfl⟩, _, _, ⟨rfl, rfl⟩, _, _,
    ⟨-, rfl⟩, ⟨⟩, _, hloop, rfl, rfl⟩ := hrun
  refine ⟨row, hrow, rfl, ?_⟩
  rwa [args_eq_readBlock, addBlock_snd, readBlock_addBlock, if_pos rfl] at hloop

theorem fill_cons {op : OpRef → CloneM OpRef} {copy : BlockRef} {o : OpRef} {os : List OpRef}
    {s s' : Cloning}
    (hrun : (forIn (o :: os) PUnit.unit fun o _ => do
          let o' ← op o
          onContext fun ctx => (ctx.append copy o', ())
          pure (ForInStep.yield PUnit.unit) : CloneM PUnit).run s = .ok (PUnit.unit, s')) :
    ∃ o' s₁, (op o).run s = .ok (o', s₁) ∧
      (forIn os PUnit.unit fun o _ => do
          let o' ← op o
          onContext fun ctx => (ctx.append copy o', ())
          pure (ForInStep.yield PUnit.unit) : CloneM PUnit).run
        { s₁ with context := s₁.context.append copy o' } = .ok (PUnit.unit, s') := by
  simp only [List.forIn_cons, StateT.run_bind, Outcome.bind_eq_ok, Outcome.pure_eq_ok,
    Prod.exists, StateT.run_pure, onContext, StateT.run_modifyGet, Prod.mk.injEq] at hrun
  obtain ⟨_, _, ⟨o', s₁, ho, _, _, ⟨-, rfl⟩, rfl, rfl⟩, hrun⟩ := hrun
  exact ⟨o', s₁, ho, hrun⟩

theorem region_eq_ok {op : OpRef → CloneM OpRef} {r copy : RegionRef} {s s' : Cloning}
    (hrun : (region op r).run s = .ok (copy, s')) :
    ∃ row blocks s₁, s.context.region r = .ok row ∧
      (row.blocks.mapM (block op)).run s = .ok (blocks, s₁) ∧
      copy = ⟨s₁.context.regions.size⟩ ∧
      s' = { s₁ with context := (s₁.context.addRegion row.location blocks).1 } := by
  simp only [region, StateT.run_bind, StateT.run_get, Outcome.bind_eq_ok, Outcome.pure_eq_ok,
    Prod.exists, onContext, StateT.run_modifyGet, StateT.run_monadLift, Prod.mk.injEq] at hrun
  obtain ⟨_, _, ⟨rfl, rfl⟩, _, _, ⟨row, hrow, rfl, rfl⟩, blocks, s₁, hblocks, rfl, rfl⟩ := hrun
  exact ⟨row, blocks, s₁, hrow, hblocks, rfl, rfl⟩

/-- The blueprint of a copy. -/
def blueprint (row : Operation) (operands : List ValueRef) (regions : List RegionRef) :
    Blueprint :=
  { row.toBlueprint with operands, regions }

theorem opWithin_succ_eq_ok {n : Nat} {o copy : OpRef} {s s' : Cloning}
    (hrun : (opWithin (n + 1) o).run s = .ok (copy, s')) :
    ∃ row regions s₁, s.context.op o = .ok row ∧
      (row.regions.mapM (region (opWithin n))).run s = .ok (regions, s₁) ∧
      copy = ⟨s₁.context.ops.size⟩ ∧
      s' = {
        context :=
          (s₁.context.addOp (blueprint row (row.operands.map s.map.apply) regions)).1
        map := s₁.map.insertAll row.results
          (s₁.context.nextValues row.resultTypes.length) } := by
  simp only [opWithin, StateT.run_bind, StateT.run_get, Outcome.bind_eq_ok, Outcome.pure_eq_ok,
    Prod.exists, StateT.run_pure, onContext, StateT.run_modifyGet, StateT.run_monadLift,
    Prod.mk.injEq, record, StateT.run_modify] at hrun
  obtain ⟨_, _, ⟨rfl, rfl⟩, _, _, ⟨row, hrow, rfl, rfl⟩, _, _, ⟨rfl, rfl⟩, regions, s₁, hregions, _, _,
    ⟨rfl, rfl⟩, _, _, ⟨rfl, rfl⟩, _, _, ⟨-, rfl⟩, rfl, rfl⟩ := hrun
  refine ⟨row, regions, s₁, hrow, hregions, rfl, ?_⟩
  rw [results_eq_readOp, addOp_snd, readOp_addOp, if_pos rfl]
  rfl

/-! ## What stays loose -/

section Loose

variable {α β : Type} {f : α → CloneM β}

/-- Steps on a list one after the other, each of which makes one thing. -/
theorem mapM_chain (made : Context → List β → Context → Prop) (hnil : ∀ ctx, made ctx [] ctx)
    (hcons : ∀ ctx ctx₁ ctx₂ y ys, made ctx [y] ctx₁ → made ctx₁ ys ctx₂ → made ctx (y :: ys) ctx₂)
    (hstep : ∀ x s y s', (f x).run s = .ok (y, s') → made s.context [y] s'.context) {xs : List α}
    {s s' : Cloning} {ys : List β} (hrun : (xs.mapM f).run s = .ok (ys, s')) :
    made s.context ys s'.context := by
  induction xs generalizing s ys with
  | nil =>
    simp only [List.mapM_nil, StateT.run_pure, Outcome.pure_eq_ok, Prod.mk.injEq] at hrun
    obtain ⟨rfl, rfl⟩ := hrun
    exact hnil _
  | cons x xs ih =>
    obtain ⟨y, s₁, ys, hy, hys, rfl⟩ := run_mapM_cons hrun
    exact hcons _ _ _ y ys (hstep x s y s₁ hy) (ih hys)

variable {op : OpRef → CloneM OpRef}
  (hop : ∀ o s copy s', (op o).run s = .ok (copy, s') →
    s.context.Loosened [copy] [] [] s'.context)

include hop

theorem fill_loosened {copy : BlockRef} {os : List OpRef} {s s' : Cloning}
    (hrun : (forIn os PUnit.unit fun o _ => do
          let o' ← op o
          onContext fun ctx => (ctx.append copy o', ())
          pure (ForInStep.yield PUnit.unit) : CloneM PUnit).run s = .ok (PUnit.unit, s')) :
    s.context.Loosened [] [] [] s'.context := by
  induction os generalizing s with
  | nil =>
    simp only [List.forIn_nil, StateT.run_pure, Outcome.pure_eq_ok, Prod.mk.injEq] at hrun
    obtain ⟨-, rfl⟩ := hrun
    exact .refl _
  | cons o os ih =>
    obtain ⟨o', s₁, ho, hrest⟩ := fill_cons hrun
    exact ((hop o s o' s₁ ho).append copy).trans (ih hrest)

theorem block_loosened {b copy : BlockRef} {s s' : Cloning}
    (hrun : (block op b).run s = .ok (copy, s')) :
    s.context.Loosened [] [copy] [] s'.context := by
  obtain ⟨row, -, rfl, hloop⟩ := block_eq_ok hrun
  exact ((Loosened.refl s.context).addBlock row.location row.argTypes).trans (fill_loosened hop hloop)

theorem region_loosened {r copy : RegionRef} {s s' : Cloning}
    (hrun : (region op r).run s = .ok (copy, s')) :
    s.context.Loosened [] [] [copy] s'.context := by
  obtain ⟨row, blocks, s₁, -, hblocks, rfl, rfl⟩ := region_eq_ok hrun
  exact (mapM_chain (fun ctx bs ctx₁ => ctx.Loosened [] bs [] ctx₁) Loosened.refl
    (fun _ _ _ _ _ h₁ h₂ => h₁.trans h₂) (fun _ _ _ _ => block_loosened hop) hblocks).addRegion
    row.location

end Loose

theorem opWithin_loosened {n : Nat} {o copy : OpRef} {s s' : Cloning}
    (hrun : (opWithin n o).run s = .ok (copy, s')) :
    s.context.Loosened [copy] [] [] s'.context := by
  induction n generalizing o s copy s' with
  | zero => simp [opWithin] at hrun
  | succ n ih =>
    obtain ⟨row, regions, s₁, -, hregions, rfl, rfl⟩ := opWithin_succ_eq_ok hrun
    have h := mapM_chain (fun ctx rs ctx₁ => ctx.Loosened [] [] rs ctx₁) Loosened.refl
      (fun _ _ _ _ _ h₁ h₂ => h₁.trans h₂)
      (fun _ _ _ _ => region_loosened fun _ _ _ _ hrun => ih hrun) hregions
    exact Loosened.addOp h

/-! ## What the steps achieve -/

/-- The next values are mapped to. -/
theorem copied_insertAll {s : Cloning} {ctx : Context} {vs : List ValueRef} {n : Nat}
    (hnodup : vs.Nodup) (hlength : vs.length = n)
    (hsize : ctx.values.size = s.context.values.size + n)
    (htypes : ctx.types = s.context.types) (hpaths : ctx.paths = s.context.paths) :
    Copied (· ∈ vs) s { context := ctx, map := s.map.insertAll vs (s.context.nextValues n) } := by
  have hmap := ValueMap.map_apply_insertAll s.map (s.context.nextValues n) hnodup
    (by simpa [nextValues] using hlength)
  refine ⟨by simp [hsize], fun v hv => ValueMap.apply_insertAll_of_not_mem hv, fun v hv => ?_,
    fun v w hv hw e => ?_, fun v => ?_, htypes, hpaths⟩
  · have hm := List.mem_map_of_mem (f := (s.map.insertAll vs (s.context.nextValues n)).apply) hv
    rw [hmap, mem_nextValues] at hm
    rwa [hsize]
  · have hnodup' : (vs.map (s.map.insertAll vs (s.context.nextValues n)).apply).Nodup := by
      rw [hmap, nextValues]
      refine List.nodup_range.map fun i j e => ?_
      simpa using e
    exact List.inj_on_of_nodup_map hnodup' hv hw e
  · exact ValueMap.mem_keys_insertAll (by simpa [nextValues] using hlength)

section Spec

variable {source : Context} {top : OpRef} {n : Nat}

/-- What copying an operation in the tree of `top` achieves. -/
def Achieves (source : Context) (top : OpRef) (n : Nat) : Prop :=
  ∀ o s copy s', source.Within o top → Ready source s →
    (opWithin n o).run s = .ok (copy, s') →
    s.context.Extends s'.context ∧ s'.context.Sound ∧ Copied (source.DefinedWithin o) s s' ∧
      MadeOp s.context s'.context copy ∧
      Mirrors (Visible source top o) (source.DefinedWithin o) s s' fun σ ctx =>
        LocatedCopy source top σ ctx n o copy

/-- The loop over the operations of a block: `before` has been copied. -/
theorem fill_spec (hsource : source.Sound) (hop : Achieves source top n) {b copy : BlockRef}
    {a : OpRef} (hb : source.holder b = some a) (ha : source.Within a top)
    (before : List OpRef) {os : List OpRef} (hos : source.opsOf b = before ++ os) {s s' : Cloning}
    (hs : Ready source s) (hcopy : s.context.HasBlock copy) (hnew : ¬source.HasBlock copy)
    (hfree : s.context.regionOf copy = none)
    (hrun : (forIn os PUnit.unit fun o _ => do
          let o' ← opWithin n o
          onContext fun ctx => (ctx.append copy o', ())
          pure (ForInStep.yield PUnit.unit) : CloneM PUnit).run s = .ok (PUnit.unit, s')) :
    s'.context.Sound ∧
      (∀ old : Context, old.Extends s.context → ¬old.HasBlock copy → old.Extends s'.context) ∧
      (∀ old : Context, old.HasBlock copy → Kept old s.context s'.context) ∧
      Copied (fun v => ∃ o ∈ os, source.DefinedWithin o v) s s' ∧
      ∃ os', (∀ row, s.context.block copy = .ok row →
          s'.context.block copy = .ok { row with ops := row.ops ++ os' }) ∧
        Mirrors (fun v => v ∈ source.args b ∨ (∃ p ∈ before, source.DefinedWithin p v) ∨
            Visible source top a v)
          (fun v => ∃ o ∈ os, source.DefinedWithin o v) s s' fun σ ctx =>
            List.Forall₂ (LocatedCopy source top σ ctx n) os os' := by
  induction os generalizing before s with
  | nil =>
    simp only [List.forIn_nil, StateT.run_pure, Outcome.pure_eq_ok, Prod.mk.injEq,
      true_and] at hrun
    subst hrun
    refine ⟨hs.sound, fun _ h _ => h, fun old _ => (Extends.refl _).kept old,
      (Copied.refl s).congr (by simp), [], fun row hrow => ?_, fun σ _ _ ctx _ => .nil⟩
    rw [List.append_nil]
    exact hrow
  | cons o os ih =>
    obtain ⟨o', s₁, ho, hrest⟩ := fill_cons hrun
    have hmem : o ∈ source.opsOf b := by simp [hos]
    have habove := (hsource.coherent.above_of_mem hmem).trans hb
    obtain ⟨hext₁, hsound₁, hcopied₁, ⟨hnew₁, hex₁, hfree₁⟩, hmirror₁⟩ :=
      hop o s o' s₁ ((within_of_above habove).trans ha) hs ho
    have hrow₁ : s₁.context.HasBlock copy := hext₁.hasBlock hcopy
    have hregion₁ : s₁.context.regionOf copy = none :=
      (hext₁.readBlock hcopy _ _).trans hfree
    let s₂ : Cloning := { s₁ with context := s₁.context.append copy o' }
    have hext₂ {old : Context} (h : old.Extends s.context) (hn : ¬old.HasBlock copy) :
        old.Extends s₂.context :=
      (h.trans hext₁).append hn fun ho' => hnew₁ (h.hasOp ho')
    have hkept₂ {old : Context} (h : old.HasBlock copy) : Kept old s.context s₂.context :=
      (hext₁.kept old).trans (kept_append h)
    have hsound₂ : s₂.context.Sound := hsound₁.append hex₁ hrow₁ hfree₁ fun t ht => by
      rw [holder, hregion₁] at ht
      cases ht
    have hput₂ := pushOp_put hsound₁.coherent (pushOp_eq_ok.2 ⟨hex₁, hrow₁, hfree₁, rfl⟩)
    have hcopied₂ : Copied (source.DefinedWithin o) s s₂ :=
      ⟨hcopied₁.size, hcopied₁.frame, hcopied₁.fresh, hcopied₁.injective, hcopied₁.keys,
        hcopied₁.types, hcopied₁.paths⟩
    obtain ⟨hsound', hext', hkept', hcopied', os', hrow', hmirror'⟩ :=
      ih (before ++ [o]) (s := s₂) (by simpa using hos) ⟨hext₂ hs.extends hnew, hsound₂⟩
        (hput₂.relisted.inPlace.hasBlock.2 hrow₁)
        ((congrFun hput₂.relisted.inPlace.regionOf copy).trans hregion₁) hrest
    -- the values of the operation are not touched when the others are copied
    have hothers (v : ValueRef) (hv : source.DefinedWithin o v) :
        ¬∃ p ∈ os, source.DefinedWithin p v := by
      rintro ⟨p, hp, hvp⟩
      have hpb : p ∈ source.opsOf b := by simp [hos, hp]
      obtain rfl := hsource.eq_of_definedWithin habove
        ((hsource.coherent.above_of_mem hpb).trans hb) hv hvp
      have hnodup := hsource.coherent.ops.nodup b
      rw [hos, List.nodup_append] at hnodup
      exact (List.nodup_cons.1 hnodup.2.1).1 hp
    refine ⟨hsound', fun old h hn => hext' old (hext₂ h hn) hn,
      fun old h => (hkept₂ h).trans (hkept' old h), (hcopied₂.trans hcopied').congr (by simp),
      o' :: os', fun row hrow => ?_, fun σ hσ hvisible ctx hkept => ?_⟩
    · have hrow₂ : s₂.context.block copy = .ok { row with ops := row.ops ++ [o'] } := by
        rw [block_append, if_pos rfl, hext₁.block copy row hrow]
        rfl
      simpa using hrow' _ hrow₂
    have hσo (v : ValueRef) (hv : source.DefinedWithin o v) : σ v = s₁.map.apply v := by
      rw [hσ v ⟨o, List.mem_cons_self, hv⟩, hcopied'.frame v (hothers v hv)]
    refine .cons (hmirror₁ σ hσo (fun v hv => hvisible v ?_) ctx ?_)
      (hmirror' σ (fun v ⟨p, hp, hv⟩ => hσ v ⟨p, List.mem_cons_of_mem o hp, hv⟩)
        (fun v hv => ?_) ctx (hkept.mono ?_ ?_ ?_))
    · rcases hv with hv | hv
      · obtain hv | hv | ⟨a', ha', hv⟩ := (hsource.coherent.earlier_iff hos).1 hv
        · exact .inl hv
        · exact .inr (.inl hv)
        · obtain rfl := Option.some.inj (hb.symm.trans ha')
          exact .inr (.inr (.inl hv))
      · exact .inr (.inr (.inr hv))
    · exact ((kept_append hcopy).trans (hkept' _ hcopy)).trans hkept
    · -- what is visible has been copied by now, or is not touched by this operation
      by_cases hvo : source.DefinedWithin o v
      · exact hσo v hvo
      · refine (hvisible v ?_).trans (hcopied₁.frame v hvo).symm
        rcases hv with hv | ⟨p, hp, hv⟩ | hv
        · exact .inl hv
        · rcases List.mem_append.1 hp with hp | hp
          · exact .inr (.inl ⟨p, hp, hv⟩)
          · rw [List.mem_singleton.1 hp] at hv
            exact absurd hv hvo
        · exact .inr (.inr hv)
    · exact fun p hp => hput₂.relisted.inPlace.hasOp.2 (hext₁.hasOp hp)
    · exact fun c hc => hput₂.relisted.inPlace.hasBlock.2 (hext₁.hasBlock hc)
    · exact fun r hr => hext₁.hasRegion hr

/-- Copying a block of an operation in the tree of `top`. -/
theorem block_spec (hsource : source.Sound) (hop : Achieves source top n) {b copy : BlockRef}
    {a : OpRef} (hb : source.holder b = some a) (ha : source.Within a top) {s s' : Cloning}
    (hs : Ready source s) (hrun : (block (opWithin n) b).run s = .ok (copy, s')) :
    s.context.Extends s'.context ∧ s'.context.Sound ∧ Copied (source.DefinedInBlock b) s s' ∧
      MadeBlock s.context s'.context copy ∧
      Mirrors (Visible source top a) (source.DefinedInBlock b) s s' fun σ ctx =>
        BlockCopy source σ ctx (CopyOf source top σ ctx n) b copy ∧
          BlockLocated source ctx (Located source ctx n) b copy := by
  obtain ⟨row, hrow, rfl, hloop⟩ := block_eq_ok hrun
  have hhas : source.HasBlock b := by
    obtain ⟨r, hr, -⟩ := Option.bind_eq_some_iff.1 hb
    exact hsource.coherent.hasBlock_of_mem ((hsource.coherent.blocks.owner_iff b r).1 hr)
  obtain ⟨row', hsrc⟩ := hasBlock_iff.1 hhas
  obtain rfl : row = row' := Except.ok.inj (hrow.symm.trans (hs.extends.block b row' hsrc))
  have hargs : source.args b = row.args := by
    rw [args_eq_readBlock, readBlock_of_block hsrc]
  have hops : source.opsOf b = row.ops := readBlock_of_block hsrc _ _
  have hlength : row.args.length = row.argTypes.length := by
    have := hsource.coherent.values.args_length b
    rwa [hargs, readBlock_of_block hsrc] at this
  have hnodup : row.args.Nodup := hargs ▸ hsource.coherent.args_nodup b
  let copy : BlockRef := ⟨s.context.blocks.size⟩
  let s₁ : Cloning :=
    { context := (s.context.addBlock row.location row.argTypes []).1
      map := s.map.insertAll row.args (s.context.nextValues row.argTypes.length) }
  have hext₁ : s.context.Extends s₁.context := extends_addBlock
  have hsound₁ : s₁.context.Sound := hs.sound.addBlock (by simp) (by simp) List.nodup_nil
  have hcopied₁ : Copied (· ∈ row.args) s s₁ :=
    copied_insertAll hnodup hlength (by simp [addBlock, addValues]) rfl rfl
  have hrow₁ : s₁.context.block copy =
      .ok ⟨row.location, row.argTypes, s.context.nextValues row.argTypes.length, [], none⟩ := by
    rw [block_iff_readBlock, readBlock_addBlock, if_pos rfl]
  have hnew : ¬s.context.HasBlock copy := not_hasBlock_size
  have hfree₁ : s₁.context.regionOf copy = none := readBlock_of_block hrow₁ _ _
  obtain ⟨hsound', hext', hkept', hcopied', ops, hrow', hmirror⟩ :=
    fill_spec hsource hop hb ha [] hops ⟨hs.extends.trans hext₁, hsound₁⟩
      (hasBlock_iff.2 ⟨_, hrow₁⟩) (fun h => hnew (hs.extends.hasBlock h)) hfree₁ hloop
  have hblock := hrow' _ hrow₁
  have hargsops (v : ValueRef) (hv : v ∈ row.args) : ¬∃ o ∈ row.ops, source.DefinedWithin o v := by
    rintro ⟨o, ho, hvo⟩
    rw [← hargs] at hv
    exact hsource.not_definedWithin ((definer_of_mem_args hsource.coherent hv).trans hb)
      ((hsource.coherent.above_of_mem (hops ▸ ho)).trans hb) hvo
  refine ⟨hext' _ hext₁ hnew, hsound', (hcopied₁.trans hcopied').congr fun v => ?_,
    ⟨hnew, hasBlock_iff.2 ⟨_, hblock⟩, readBlock_of_block hblock _ _⟩,
    fun σ hσ hvisible ctx hkept => ?_⟩
  · rw [DefinedInBlock, hargs, hops]
  obtain ⟨owner, hctx⟩ := hkept.block copy _ hblock hnew
  have hσargs (v : ValueRef) (hv : v ∈ row.args) : σ v = s₁.map.apply v := by
    rw [hσ v (.inl (hargs ▸ hv)), hcopied'.frame v (hargsops v hv)]
  have hopsOf : ctx.opsOf copy = ops := readBlock_of_block hctx _ _
  have hcopies :
      List.Forall₂ (LocatedCopy source top σ ctx n) (source.opsOf b) (ctx.opsOf copy) := by
    rw [hops, hopsOf]
    refine hmirror σ (fun v hv => hσ v (.inr ?_)) (fun v hv => ?_) ctx (hkept.extend hext₁)
    · rwa [hops]
    · rw [hargs] at hv
      rcases hv with hv | ⟨p, hp, -⟩ | hv
      · exact hσargs v hv
      · cases hp
      · rw [hvisible v hv, hcopied₁.frame v]
        intro hm
        exact hv.not_definedWithin hsource ha
          (DefinedInBlock.definedWithin hsource.coherent (.inl (hargs ▸ hm)) hb)
  refine ⟨⟨fun h => hnew (hs.extends.hasBlock h), hasBlock_iff.2 ⟨_, hctx⟩,
    (readBlock_of_block hctx (·.argTypes) _).trans (readBlock_of_block hsrc (·.argTypes) _).symm,
      ?_, hcopies.imp fun _ _ h => h.1⟩,
    (readBlock_of_block hctx (·.location) _).trans (readBlock_of_block hsrc (·.location) _).symm,
    hcopies.imp fun _ _ h => h.2⟩
  · rw [hargs, List.map_congr_left hσargs, ValueMap.map_apply_insertAll _ _ hnodup
      (by simpa [nextValues] using hlength), args_eq_readBlock]
    exact readBlock_of_block hctx _ _

/-- Copying a region of an operation in the tree of `top`. -/
theorem region_spec (hsource : source.Sound) (hop : Achieves source top n) {r copy : RegionRef}
    {a : OpRef} (hr : r ∈ source.regionsOf a) (ha : source.Within a top) {s s' : Cloning}
    (hs : Ready source s) (hrun : (region (opWithin n) r).run s = .ok (copy, s')) :
    s.context.Extends s'.context ∧ s'.context.Sound ∧ Copied (source.DefinedInRegion r) s s' ∧
      MadeRegion s.context s'.context copy ∧
      Mirrors (Visible source top a) (source.DefinedInRegion r) s s' fun σ ctx =>
        RegionCopy source σ ctx (CopyOf source top σ ctx n) r copy ∧
          RegionLocated source ctx (Located source ctx n) r copy := by
  obtain ⟨row, blocks, s₁, hrow, hblocks, rfl, rfl⟩ := region_eq_ok hrun
  obtain ⟨row', hrow'⟩ := hasRegion_iff.1 (hsource.coherent.hasRegion_of_mem hr)
  obtain rfl : row = row' := Except.ok.inj (hrow.symm.trans (hs.extends.region r row' hrow'))
  have hbs : source.blocksOf r = row.blocks := readRegion_of_region hrow' _ _
  have hholder (b : BlockRef) (hb : b ∈ row.blocks) : source.holder b = some a :=
    hsource.coherent.holder_of_mem hr (hbs ▸ hb)
  obtain ⟨hext₁, hsound₁, hcopied₁, hmade₁, hnodup₁, hmirror₁⟩ :=
    mapM_spec source.DefinedInBlock (Visible source top a)
      (fun σ ctx b b' => BlockCopy source σ ctx (CopyOf source top σ ctx n) b b' ∧
        BlockLocated source ctx (Located source ctx n) b b') MadeBlock
      (fun c c₁ c₂ c₃ b h₁ hb h₃ => hb.widen h₁ h₃) (fun c c₁ c₂ b hb hb' => hb'.1 hb.2.1)
      (fun b hb v hv hvb => hv.not_definedWithin hsource ha
        (hvb.definedWithin hsource.coherent (hholder b hb)))
      (fun b hb s copy s' hs hrun => block_spec hsource hop (hholder b hb) ha hs hrun)
      ((hbs ▸ hsource.coherent.blocks.nodup r).pairwise_of_forall_ne fun b hb c hc hne v hvb hvc =>
        hne (hsource.eq_of_definedInBlock (hholder b hb) (hholder c hc) hvb hvc))
      hs hblocks
  have hrow₂ : (s₁.context.addRegion row.location blocks).1.region ⟨s₁.context.regions.size⟩ =
      .ok ⟨row.location, blocks, none⟩ := by
    rw [region_iff_readRegion, readRegion_addRegion, if_pos rfl]
  have hnew : ¬s.context.HasRegion ⟨s₁.context.regions.size⟩ := fun h =>
    not_hasRegion_size (hext₁.hasRegion h)
  refine ⟨hext₁.addRegion fun b hb => (hmade₁ b hb).1,
    hsound₁.addRegion (fun b hb => (hmade₁ b hb).2.1) (fun b hb => (hmade₁ b hb).2.2) hnodup₁, ?_,
    ⟨hnew, hasRegion_iff.2 ⟨_, hrow₂⟩, readRegion_of_region hrow₂ _ _⟩,
    fun σ hσ hvisible ctx hkept => ?_⟩
  · have hvalues : (s₁.context.addRegion row.location blocks).1.values = s₁.context.values := by
      simp only [addRegion, foldl_modifyBlock]
    have hiff (v : ValueRef) : source.DefinedInRegion r v ↔
        ∃ b ∈ row.blocks, source.DefinedInBlock b v := by rw [DefinedInRegion, hbs]
    exact ⟨by simpa only [hvalues] using hcopied₁.size,
      fun v hv => hcopied₁.frame v (by rwa [← hiff]),
      fun v hv => by simpa only [hvalues] using hcopied₁.fresh v ((hiff v).1 hv),
      fun v w hv hw => hcopied₁.injective v w ((hiff v).1 hv) ((hiff w).1 hw),
      fun v => by simpa only [hiff] using hcopied₁.keys v,
      by simpa only [addRegion, foldl_modifyBlock] using hcopied₁.types,
      by simpa only [addRegion, foldl_modifyBlock] using hcopied₁.paths⟩
  · obtain ⟨owner, hctx⟩ := hkept.region _ _ hrow₂ hnew
    have hblocksOf : ctx.blocksOf ⟨s₁.context.regions.size⟩ = blocks :=
      readRegion_of_region hctx _ _
    have hcopies := hmirror₁ σ (fun v hv => hσ v (by rwa [DefinedInRegion, hbs])) hvisible ctx
      (kept_addRegion.trans hkept)
    rw [← hbs, ← hblocksOf] at hcopies
    exact ⟨⟨fun h => hnew (hs.extends.hasRegion h), hasRegion_iff.2 ⟨_, hctx⟩,
        hcopies.imp fun _ _ h => h.1⟩,
      (readRegion_of_region hctx (·.location) _).trans
        (readRegion_of_region hrow' (·.location) _).symm,
      hcopies.imp fun _ _ h => h.2⟩

/-- Copying an operation in the tree of `top`. -/
theorem achieves (hsource : source.Sound) (htop : source.HasOp top) : Achieves source top n := by
  induction n with
  | zero =>
    intro o s copy s' _ _ hrun
    simp [opWithin] at hrun
  | succ n ih =>
    intro o s copy s' ho hs hrun
    obtain ⟨row, regions, s₁, hrow, hregions, rfl, rfl⟩ := opWithin_succ_eq_ok hrun
    obtain ⟨row', hrow'⟩ := hasOp_iff.1 (hsource.coherent.hasOp_of_within' ho htop)
    obtain rfl : row = row' := Except.ok.inj (hrow.symm.trans (hs.extends.op o row' hrow'))
    have hrs : source.regionsOf o = row.regions := readOp_of_op hrow' _ _
    have hresults : source.results o = row.results := by
      rw [results_eq_readOp, readOp_of_op hrow']
    have hlength : row.results.length = row.resultTypes.length := by
      have := hsource.coherent.values.results_length o
      rwa [hresults, readOp_of_op hrow'] at this
    have hnodup : row.results.Nodup := hresults ▸ hsource.coherent.results_nodup o
    obtain ⟨hext₁, hsound₁, hcopied₁, hmade₁, hnodup₁, hmirror₁⟩ :=
      mapM_spec source.DefinedInRegion (Visible source top o)
        (fun σ ctx r r' => RegionCopy source σ ctx (CopyOf source top σ ctx n) r r' ∧
          RegionLocated source ctx (Located source ctx n) r r') MadeRegion
        (fun c c₁ c₂ c₃ r h₁ hr h₃ => hr.widen h₁ h₃) (fun c c₁ c₂ r hr hr' => hr'.1 hr.2.1)
        (fun r hr v hv hvr => hv.not_definedWithin hsource ho
          (hsource.coherent.definedWithin_iff.2 (.inr ⟨r, hrs ▸ hr, hvr⟩)))
        (fun r hr s copy s' hs hrun => region_spec hsource ih (hrs ▸ hr) ho hs hrun)
        ((hrs ▸ hsource.coherent.regions.nodup o).pairwise_of_forall_ne fun r hr r' hr' hne v hvr hvr' =>
            hne (hsource.eq_of_definedInRegion (hrs ▸ hr) (hrs ▸ hr') hvr hvr'))
        hs hregions
    let copy := blueprint row (row.operands.map s.map.apply) regions
    have hrow₂ : (s₁.context.addOp copy).1.op ⟨s₁.context.ops.size⟩ =
        .ok (s₁.context.freshRow copy) := by
      rw [op_iff_readOp, readOp_addOp, if_pos rfl]
    have hnew : ¬s.context.HasOp ⟨s₁.context.ops.size⟩ := fun h => not_hasOp_size (hext₁.hasOp h)
    have hcopied₂ : Copied (· ∈ row.results) s₁
        { context := (s₁.context.addOp copy).1
          map := s₁.map.insertAll row.results (s₁.context.nextValues row.resultTypes.length) } :=
      copied_insertAll hnodup hlength
        (by simp [addOp, foldl_modifyRegion, addValues, copy, blueprint])
        (by simp only [addOp, foldl_modifyRegion, addValues])
        (by simp only [addOp, foldl_modifyRegion, addValues])
    have hdisjoint (v : ValueRef) (hv : ∃ r ∈ row.regions, source.DefinedInRegion r v) :
        v ∉ row.results := by
      obtain ⟨r, hr, hv⟩ := hv
      rw [← hresults]
      exact hsource.not_mem_results (hrs ▸ hr) hv
    refine ⟨hext₁.addOp fun r hr => (hmade₁ r hr).1,
      hsound₁.addOp (fun r hr => (hmade₁ r hr).2.1) (fun r hr => (hmade₁ r hr).2.2) hnodup₁,
      (hcopied₁.trans hcopied₂).congr fun v => ?_,
      ⟨hnew, hasOp_iff.2 ⟨_, hrow₂⟩, readOp_of_op hrow₂ _ _⟩,
      fun σ hσ hvisible ctx hkept => ?_⟩
    · rw [hsource.coherent.definedWithin_iff, hresults, hrs, or_comm]
    obtain ⟨owner, hctx⟩ := hkept.op _ _ hrow₂ hnew
    have hread {α : Type} (f : Operation → α) (default : α) :
        ctx.readOp f default ⟨s₁.context.ops.size⟩ =
          f { s₁.context.freshRow copy with parent := owner } := readOp_of_op hctx f default
    have hread' {α : Type} (f : Operation → α) (default : α) :
        source.readOp f default o = f row := readOp_of_op hrow' f default
    have hres : row.results.map σ = s₁.context.nextValues row.resultTypes.length := by
      rw [← ValueMap.map_apply_insertAll s₁.map
        (s₁.context.nextValues row.resultTypes.length) hnodup (by simpa [nextValues] using hlength)]
      exact List.map_congr_left fun v hv =>
        hσ v (hsource.coherent.definedWithin_iff.2 (.inl (hresults ▸ hv)))
    have hregionsOf : ctx.regionsOf ⟨s₁.context.ops.size⟩ = regions := hread _ _
    have hcopies : List.Forall₂
        (fun r r' => RegionCopy source σ ctx (CopyOf source top σ ctx n) r r' ∧
          RegionLocated source ctx (Located source ctx n) r r')
        (source.regionsOf o) (ctx.regionsOf ⟨s₁.context.ops.size⟩) := by
      rw [hrs, hregionsOf]
      refine hmirror₁ σ (fun v hv => ?_) hvisible ctx (kept_addOp.trans hkept)
      rw [hσ v (hsource.coherent.definedWithin_iff.2 (.inr ?_)), hcopied₂.frame v (hdisjoint v hv)]
      rwa [hrs]
    refine ⟨⟨⟨fun h => hnew (hs.extends.hasOp h), hasOp_iff.2 ⟨_, hctx⟩, ?_, ?_, ?_, ?_, ?_, ?_,
        fun hall => ?_⟩, hcopies.imp fun _ _ h => h.1⟩,
      (hread (·.location) _).trans (hread' (·.location) _).symm, hcopies.imp fun _ _ h => h.2⟩
    · exact (hread (·.kind) _).trans (hread' (·.kind) _).symm
    · exact (hread (·.attributes) _).trans (hread' (·.attributes) _).symm
    · exact (hread (·.resultTypes) _).trans (hread' (·.resultTypes) _).symm
    · rw [hresults, hres, results_eq_readOp]
      exact hread _ _
    · rw [isErased_eq_readOp]
      exact hread _ _
    · rw [operandsOf, hread, operandsOf, hread']
      exact List.length_map _
    · have hoperands : source.operandsOf o = row.operands := hread' (·.operands) _
      rw [hoperands] at hall ⊢
      exact (hread (·.operands) _).trans
        (List.map_congr_left fun v hv => (hvisible v (hall v hv)).symm)

end Spec

end Clone

namespace Context

/-- The clone of an operation. Values defined in its tree are renamed to fresh ones,
    each to another, and all others as the map says. -/
structure Cloned (ctx : Context) (o : OpRef) (map : ValueMap) (ctx' : Context) (map' : ValueMap)
    (copy : OpRef) : Prop where
  «extends» : ctx.Extends ctx'
  sound : ctx'.Sound
  isNew : ¬ctx.HasOp copy
  hasOp : ctx'.HasOp copy
  free : ctx'.blockOf copy = none
  only : ∀ p, ctx'.HasOp p → ¬ctx.HasOp p → ctx'.Within p copy
  outside : ∀ v, ¬ctx.DefinedWithin o v → map'.apply v = map.apply v
  fresh : ∀ v, ctx.DefinedWithin o v →
    ctx.values.size ≤ (map'.apply v).index ∧ (map'.apply v).index < ctx'.values.size
  injective : ∀ v w, ctx.DefinedWithin o v → ctx.DefinedWithin o w →
    map'.apply v = map'.apply w → v = w
  types : ctx'.types = ctx.types
  paths : ctx'.paths = ctx.paths
  copyOf : CopyOf ctx o map'.apply ctx' (ctx.ops.size + 1) o copy

theorem Sound.cloneOp_achieves {ctx ctx' : Context} (h : ctx.Sound) {o copy : OpRef}
    {map map' : ValueMap} (hrun : ctx.cloneOp o map = .ok (ctx', map', copy)) :
    ctx.HasOp o ∧ ctx.Extends ctx' ∧ ctx'.Sound ∧
      Copied (ctx.DefinedWithin o) ⟨ctx, map⟩ ⟨ctx', map'⟩ ∧ MadeOp ctx ctx' copy ∧
      (∀ p, ctx'.HasOp p → ¬ctx.HasOp p → ctx'.Within p copy) ∧
      LocatedCopy ctx o map'.apply ctx' (ctx.ops.size + 1) o copy := by
  simp only [cloneOp, Outcome.bind_eq_ok, Outcome.pure_eq_ok, Prod.exists, Prod.mk.injEq] at hrun
  obtain ⟨copy, s', hrun, rfl, rfl, rfl⟩ := hrun
  obtain ⟨row, -, -, hrow, -⟩ := Clone.opWithin_succ_eq_ok hrun
  have ho : ctx.HasOp o := hasOp_iff.2 ⟨row, hrow⟩
  obtain ⟨hext, hsound, hcopied, hmade, hmirror⟩ :=
    Clone.achieves h ho o _ copy s' (Within.refl o) ⟨.refl ctx, h⟩ hrun
  exact ⟨ho, hext, hsound, hcopied, hmade,
    fun p hp hn => (Clone.opWithin_loosened hrun).within hext h.coherent hsound hp hn,
    hmirror _ (fun v _ => rfl) (fun v hv => hcopied.frame v (hv.not_definedWithin h (.refl o))) _
      ((Extends.refl _).kept ctx)⟩

theorem Sound.cloneOp_spec {ctx ctx' : Context} (h : ctx.Sound) {o copy : OpRef}
    {map map' : ValueMap} (hrun : ctx.cloneOp o map = .ok (ctx', map', copy)) :
    ctx.HasOp o ∧ ctx.Cloned o map ctx' map' copy := by
  obtain ⟨ho, hext, hsound, hcopied, ⟨hnew, hex, hfree⟩, honly, hcopy⟩ := h.cloneOp_achieves hrun
  exact ⟨ho, hext, hsound, hnew, hex, hfree, honly, hcopied.frame, hcopied.fresh,
    hcopied.injective, hcopied.types, hcopied.paths, hcopy.1⟩

end Context

end Offload
