import Offload.Proofs.Ir.AbreastEdit
import Offload.Proofs.Ir.Copy

/-!
# Operations that are copied alike

The copies that are made of paired operations in two contexts that match are paired, and so
is what is in them, if the maps that are used on the way map paired values to paired values
(`Cloning.Paired`).
-/

namespace Offload

open Context

variable {s : Outset} {p q : Pairing}

/-! ## Maps -/

namespace ValueMap

/-- Maps of paired values to paired values. -/
def Paired (p : Pairing) (m m' : ValueMap) : Prop :=
  List.Forall₂ (fun e e' => p.value e.1 e'.1 ∧ p.value e.2 e'.2) m.entries m'.entries

namespace Paired

variable {m m' : ValueMap}

theorem mono (h : Paired p m m') (hle : p.Le q) : Paired q m m' :=
  h.imp fun _ _ he => ⟨hle.value he.1, hle.value he.2⟩

theorem apply {b : Border} {ctx ctx' : Context} (h : Paired p m m') (hm : Match b p ctx ctx')
    {v v' : ValueRef} (hv : p.Operand b v v') : p.Operand b (m.apply v) (m'.apply v') := by
  obtain ⟨es⟩ := m
  obtain ⟨es'⟩ := m'
  replace h : List.Forall₂ _ es es' := h
  rw [ValueMap.apply, ValueMap.apply]
  induction h with
  | nil => exact hv
  | @cons e e' _ _ he _ ih =>
    obtain ⟨k, w⟩ := e
    obtain ⟨k', w'⟩ := e'
    have hk : v = k ↔ v' = k' := by rw [eq_comm, hm.eq_iff he.1 hv, eq_comm]
    simp only [List.lookup_cons, beq_eq_decide, hk]
    split
    · exact .inl he.2
    · exact ih

theorem insert (h : Paired p m m') {v v' w w' : ValueRef} (hv : p.value v v')
    (hw : p.value w w') : Paired p (m.insert v w) (m'.insert v' w') := by
  refine .cons ⟨hv, hw⟩ (List.rel_filter (fun e e' he => ?_) h)
  simp [p.value.iff he.1 hv]

theorem insertAll (h : Paired p m m') {vs vs' ws ws' : List ValueRef}
    (hvs : List.Forall₂ p.value vs vs') (hws : List.Forall₂ p.value ws ws') :
    Paired p (m.insertAll vs ws) (m'.insertAll vs' ws') := by
  induction hvs generalizing m m' ws ws' with
  | nil => exact h
  | cons hv _ ih =>
    cases hws with
    | nil => exact h
    | cons hw hws => exact ih (h.insert hv hw) hws

end Paired

end ValueMap

/-- Contexts that match, with maps of paired values to paired values. -/
structure Cloning.Paired (s : Outset) (p : Pairing) (t t' : Cloning) : Prop where
  abreast : Abreast s p t.context t'.context
  map : ValueMap.Paired p t.map t'.map

namespace Clone

variable {t t' : Cloning}

/-- What is made from a state on, with the state that it leads to. -/
def Yields {α : Type} (s : Outset) (p : Pairing) (r : Pairing → α → α → Prop)
    (a a' : α × Cloning) : Prop :=
  ∃ q, p.Le q ∧ r q a.1 a'.1 ∧ Cloning.Paired s q a.2 a'.2

theorem mapM_yields {α β : Type} {r : Pairing → α → α → Prop} {e : Pairing → β → β → Prop}
    (hr : ∀ {p q x x'}, p.Le q → r p x x' → r q x x')
    (he : ∀ {p q y y'}, p.Le q → e p y y' → e q y y') {f f' : α → CloneM β}
    (hf : ∀ {p t t' x x'}, Cloning.Paired s p t t' → r p x x' →
      Agree (Yields s p e) ((f x).run t) ((f' x').run t'))
    (h : Cloning.Paired s p t t') {xs xs' : List α} (hxs : List.Forall₂ (r p) xs xs') :
    Agree (Yields s p fun q => List.Forall₂ (e q)) ((xs.mapM f).run t) ((xs'.mapM f').run t') := by
  induction xs generalizing p t t' xs' with
  | nil =>
    cases hxs
    exact .pure ⟨p, .refl p, .nil, h⟩
  | cons x xs ih =>
    obtain ⟨x', xs', hx, htail, rfl⟩ := List.forall₂_cons_left_iff.1 hxs
    rintro ⟨ys, t₁⟩ ⟨ys', t₁'⟩ hrun hrun'
    obtain ⟨y, t₂, ys, hy, hys, rfl⟩ := run_mapM_cons hrun
    obtain ⟨y', t₂', ys', hy', hys', rfl⟩ := run_mapM_cons hrun'
    obtain ⟨q, hle, hyy, h₂⟩ := hf h hx _ _ hy hy'
    obtain ⟨q', hle', hyys, h₁⟩ := ih h₂ (htail.imp fun _ _ => hr hle) _ _ hys hys'
    exact ⟨q', hle.trans hle', .cons (he hle' hyy) hyys, h₁⟩

section Parts

variable {op op' : OpRef → CloneM OpRef}
  (hop : ∀ {p t t' o o'}, Cloning.Paired s p t t' → p.Inner s.border o o' →
    Agree (Yields s p fun q => q.Inner s.border) ((op o).run t) ((op' o').run t'))

include hop

theorem fill_yields {copy copy' : BlockRef} (h : Cloning.Paired s p t t')
    (hcopy : p.block copy copy') {os os' : List OpRef}
    (hos : List.Forall₂ (p.Inner s.border) os os') :
    Agree (Yields s p fun _ _ _ => True)
      ((forIn os PUnit.unit fun o _ => do
          let o' ← op o
          onContext fun ctx => (ctx.append copy o', ())
          pure (ForInStep.yield PUnit.unit) : CloneM PUnit).run t)
      ((forIn os' PUnit.unit fun o _ => do
          let o' ← op' o
          onContext fun ctx => (ctx.append copy' o', ())
          pure (ForInStep.yield PUnit.unit) : CloneM PUnit).run t') := by
  induction os generalizing p t t' os' with
  | nil =>
    cases hos
    exact .pure ⟨p, .refl p, trivial, h⟩
  | cons o os ih =>
    obtain ⟨o', os', ho, htail, rfl⟩ := List.forall₂_cons_left_iff.1 hos
    rintro ⟨⟨⟩, t₁⟩ ⟨⟨⟩, t₁'⟩ hrun hrun'
    obtain ⟨c, t₂, hc, hrest⟩ := fill_cons hrun
    obtain ⟨c', t₂', hc', hrest'⟩ := fill_cons hrun'
    obtain ⟨q, hle, hcc, h₂⟩ := hop h ho _ _ hc hc'
    have h₃ : Cloning.Paired s q { t₂ with context := t₂.context.append copy c }
        { t₂' with context := t₂'.context.append copy' c' } :=
      ⟨h₂.abreast.append (hle.block hcopy) hcc, h₂.map⟩
    obtain ⟨q', hle', -, h₁⟩ := ih h₃ (hle.block hcopy)
      (htail.imp fun _ _ ho => ⟨hle.op ho.1, ho.2⟩) _ _ hrest hrest'
    exact ⟨q', hle.trans hle', trivial, h₁⟩

theorem block_yields {b b' : BlockRef} (h : Cloning.Paired s p t t') (hb : p.block b b') :
    Agree (Yields s p fun q => q.block) ((block op b).run t) ((block op' b').run t') := by
  rintro ⟨copy, t₁⟩ ⟨copy', t₁'⟩ hrun hrun'
  obtain ⟨row, hrow, rfl, hfill⟩ := block_eq_ok hrun
  obtain ⟨row', hrow', rfl, hfill'⟩ := block_eq_ok hrun'
  have hsame := h.abreast.block_agree hb _ _ hrow hrow'
  obtain ⟨q, hle, hcopy, hargs, h₂⟩ := h.abreast.addBlock row.location row'.location hsame.argTypes
  have hmap := (h.map.mono hle).insertAll (hsame.args.imp fun _ _ => hle.value) hargs
  obtain ⟨q', hle', -, h₁⟩ := fill_yields hop ⟨h₂, hmap⟩ hcopy
    (hsame.ops.imp fun _ _ ho => ⟨hle.op ho.1, ho.2⟩) _ _ hfill hfill'
  exact ⟨q', hle.trans hle', hle'.block hcopy, h₁⟩

theorem region_yields {r r' : RegionRef} (h : Cloning.Paired s p t t') (hr : p.region r r') :
    Agree (Yields s p fun q => q.region) ((region op r).run t) ((region op' r').run t') := by
  rintro ⟨copy, t₁⟩ ⟨copy', t₁'⟩ hrun hrun'
  obtain ⟨row, blocks, t₂, hrow, hblocks, rfl, rfl⟩ := region_eq_ok hrun
  obtain ⟨row', blocks', t₂', hrow', hblocks', rfl, rfl⟩ := region_eq_ok hrun'
  have hsame := h.abreast.region_agree hr _ _ hrow hrow'
  obtain ⟨q, hle, hbs, h₂⟩ := mapM_yields (r := fun q => q.block) (e := fun q => q.block)
    (fun hle => hle.block) (fun hle => hle.block) (block_yields hop) h hsame.blocks _ _
    hblocks hblocks'
  obtain ⟨q', hle', hcopy, h₁⟩ := h₂.abreast.addRegion row.location row'.location hbs
  exact ⟨q', hle.trans hle', hcopy, h₁, h₂.map.mono hle'⟩

end Parts

theorem opWithin_yields (n n' : Nat) {o o' : OpRef} (h : Cloning.Paired s p t t')
    (ho : p.Inner s.border o o') :
    Agree (Yields s p fun q => q.Inner s.border) ((opWithin n o).run t)
      ((opWithin n' o').run t') := by
  induction n generalizing n' p t t' o o' with
  | zero =>
    intro _ _ hrun
    simp [opWithin] at hrun
  | succ n ih =>
    cases n' with
    | zero =>
      intro _ _ _ hrun'
      simp [opWithin] at hrun'
    | succ n' =>
      rintro ⟨copy, t₁⟩ ⟨copy', t₁'⟩ hrun hrun'
      obtain ⟨row, rs, t₂, hrow, hrs, rfl, rfl⟩ := opWithin_succ_eq_ok hrun
      obtain ⟨row', rs', t₂', hrow', hrs', rfl, rfl⟩ := opWithin_succ_eq_ok hrun'
      have hsame := h.abreast.op_agree ho.1 _ _ hrow hrow'
      obtain ⟨q, hle, hregions, h₂⟩ := mapM_yields (r := fun q => q.region)
        (e := fun q => q.region) (fun hle => hle.region) (fun hle => hle.region)
        (region_yields fun h ho => ih n' h ho) h hsame.regions _ _ hrs hrs'
      -- the operands are mapped by the map from before the regions
      have hoperands : List.Forall₂ (q.Operand s.border) (row.operands.map t.map.apply)
          (row'.operands.map t'.map.apply) := by
        rw [List.forall₂_map_left_iff, List.forall₂_map_right_iff]
        exact hsame.operands.imp fun _ _ hv =>
          (h.map.apply h.abreast.toMatch hv).mono hle
      have hblueprint : q.SameBlueprint s.border (blueprint row (row.operands.map t.map.apply) rs)
          (blueprint row' (row'.operands.map t'.map.apply) rs') :=
        ⟨hsame.kind, hsame.attributes, hoperands, hsame.resultTypes, hregions⟩
      obtain ⟨q', hle', hcopy, hresults, h₁⟩ := h₂.abreast.addOp hblueprint
      refine ⟨q', hle.trans hle', hcopy, h₁, (h₂.map.mono hle').insertAll ?_ hresults⟩
      exact hsame.results.imp fun _ _ hv => (hle.trans hle').value (hv ho.2)

end Clone

theorem Abreast.cloneOp {ctx ctx' : Context} (h : Abreast s p ctx ctx') {o o' : OpRef}
    (ho : p.Inner s.border o o') :
    Agree (fun c c' => ∃ q, p.Le q ∧ q.Inner s.border c.2.2 c'.2.2 ∧ Abreast s q c.1 c'.1)
      (ctx.cloneOp o .empty) (ctx'.cloneOp o' .empty) := by
  have hstart : Cloning.Paired s p ⟨ctx, .empty⟩ ⟨ctx', .empty⟩ := ⟨h, .nil⟩
  refine (Clone.opWithin_yields _ _ hstart ho).bind ?_
  rintro ⟨copy, t⟩ ⟨copy', t'⟩ ⟨q, hle, hcopy, h⟩
  exact .pure ⟨q, hle, hcopy, h.abreast⟩

end Offload
