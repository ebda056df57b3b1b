import Offload.Proofs.Ir.Nesting

/-!
# Walks, and the way up

A walk that was not stopped has visited everything in the operation, but for what is
nested in an operation whose visit asked to skip it (`walk_unstopped`). A walk whose
visits all succeed succeeds (`Grounded.walk_ok`).

Upward, the function with a property that is met first is the innermost one around an
operation (`enclosing_eq_some`), and none is met only if there is none
(`Grounded.enclosing_eq_none`).
-/

namespace Offload.Context

variable {ctx : Context} {o : OpRef}

/-! ## Walks -/

section Walk

variable {σ : Type}

theorem walkAll_unstopped {α : Type} {step : α → σ → Except Fault (σ × Bool)} {l : List α}
    {s s' : σ} (hrun : walkAll step l s = .ok (s', false)) {a : α} (ha : a ∈ l) :
    ∃ t t', step a t = .ok (t', false) := by
  induction l generalizing s with
  | nil => cases ha
  | cons b l ih =>
    rw [walkAll] at hrun
    obtain ⟨⟨s₁, stopped⟩, hstep, hrun⟩ := Outcome.bind_eq_ok.1 hrun
    cases stopped with
    | true => simp at hrun
    | false =>
      rcases List.mem_cons.1 ha with rfl | ha
      · exact ⟨s, s₁, hstep⟩
      · exact ih hrun ha

theorem walkAll_ok {α : Type} {step : α → σ → Except Fault (σ × Bool)} {l : List α}
    (hstep : ∀ a ∈ l, ∀ s, ∃ answer, step a s = .ok answer) (s : σ) :
    ∃ answer, walkAll step l s = .ok answer := by
  induction l generalizing s with
  | nil => exact ⟨_, rfl⟩
  | cons a l ih =>
    obtain ⟨⟨s₁, stopped⟩, hs⟩ := hstep a List.mem_cons_self s
    rw [walkAll, hs, Outcome.ok_bind]
    cases stopped with
    | true => exact ⟨_, rfl⟩
    | false => exact ih (fun b hb => hstep b (List.mem_cons_of_mem a hb)) s₁

variable {visit : OpRef → σ → Except Fault (σ × WalkStep)}

theorem walkWithin_unstopped (hc : ctx.Coherent) {n : Nat} {s s' : σ}
    (hrun : ctx.walkWithin visit n o s = .ok (s', false)) {x : OpRef} (hx : ctx.Within x o) :
    ∃ a t t' step, ctx.Within x a ∧ ctx.Within a o ∧ visit a t = .ok (t', step) ∧ step ≠ .stop ∧
      (step = .advance → a = x) := by
  induction n generalizing o s s' with
  | zero => simp [walkWithin] at hrun
  | succ n ih =>
    rw [walkWithin] at hrun
    obtain ⟨⟨s₁, step⟩, hvisit, hrun⟩ := Outcome.bind_eq_ok.1 hrun
    cases step with
    | stop => simp at hrun
    | skip => exact ⟨o, s, s₁, .skip, hx, .refl o, hvisit, by simp, by simp⟩
    | advance =>
      obtain rfl | ⟨c, hchild, hw⟩ := within_iff_below.1 hx
      · exact ⟨x, s, s₁, .advance, .refl x, .refl x, hvisit, by simp, fun _ => rfl⟩
      -- down to the list that has the child, and on from there
      obtain ⟨b, r, hb, hr, ho⟩ := above_eq_some_iff.1 hchild
      obtain ⟨row, hrow, hrun⟩ := Outcome.bind_eq_ok.1 hrun
      have hregions : ctx.regionsOf o = row.regions := readOp_of_op hrow _ _
      obtain ⟨_, _, hregion⟩ :=
        walkAll_unstopped hrun (hregions ▸ (hc.regions.owner_iff r o).1 ho)
      obtain ⟨region, hregion', hregion⟩ := Outcome.bind_eq_ok.1 hregion
      have hblocks : ctx.blocksOf r = region.blocks := readRegion_of_region hregion' _ _
      obtain ⟨_, _, hblock⟩ :=
        walkAll_unstopped hregion (hblocks ▸ (hc.blocks.owner_iff b r).1 hr)
      obtain ⟨block, hblock', hblock⟩ := Outcome.bind_eq_ok.1 hblock
      have hops : ctx.opsOf b = block.ops := readBlock_of_block hblock' _ _
      obtain ⟨_, _, hop⟩ := walkAll_unstopped hblock (hops ▸ (hc.ops.owner_iff c b).1 hb)
      obtain ⟨a, t, t', step, hxa, hac, hrest⟩ := ih hop hw
      exact ⟨a, t, t', step, hxa, hac.trans (within_of_above hchild), hrest⟩

/-- What a walk to the end has passed over is in something to be skipped. -/
theorem walk_unstopped (hc : ctx.Coherent) {s s' : σ}
    (hrun : ctx.walk visit o s = .ok (s', false)) {x : OpRef} (hx : ctx.Within x o) :
    ∃ a t t' step, ctx.Within x a ∧ ctx.Within a o ∧ visit a t = .ok (t', step) ∧ step ≠ .stop ∧
      (step = .advance → a = x) := walkWithin_unstopped hc hrun hx

theorem Grounded.walk_ok (hg : ctx.Grounded) (h : ctx.Coherent) (ho : ctx.HasOp o)
    (hvisit : ∀ p, ctx.HasOp p → ∀ s, ∃ answer, visit p s = .ok answer) (s : σ) :
    ∃ answer, ctx.walk visit o s = .ok answer := by
  obtain ⟨depth, hdepth, hsize⟩ := hg.exists_depth h
  have key {n : Nat} {o : OpRef} (ho : ctx.HasOp o) (hn : ctx.ops.size ≤ depth o + n) (s : σ) :
      ∃ answer, ctx.walkWithin visit n o s = .ok answer := by
    induction n generalizing o s with
    | zero =>
      have := hsize o ho
      omega
    | succ n ih =>
      obtain ⟨⟨s₁, step⟩, hs⟩ := hvisit o ho s
      rw [walkWithin, hs, Outcome.ok_bind]
      cases step with
      | stop => exact ⟨_, rfl⟩
      | skip => exact ⟨_, rfl⟩
      | advance =>
        obtain ⟨row, hrow⟩ := hasOp_iff.1 ho
        have hregions : ctx.regionsOf o = row.regions := readOp_of_op hrow _ _
        dsimp only
        rw [hrow, Outcome.ok_bind]
        refine walkAll_ok (fun r hr s => ?_) s₁
        rw [← hregions] at hr
        obtain ⟨region, hregion⟩ := hasRegion_iff.1 (h.hasRegion_of_mem hr)
        have hblocks : ctx.blocksOf r = region.blocks := readRegion_of_region hregion _ _
        rw [walkRegion, hregion, Outcome.ok_bind]
        refine walkAll_ok (fun b hb s => ?_) s
        rw [← hblocks] at hb
        obtain ⟨block, hblock⟩ := hasBlock_iff.1 (h.hasBlock_of_mem hb)
        have hops : ctx.opsOf b = block.ops := readBlock_of_block hblock _ _
        rw [walkBlock, hblock, Outcome.ok_bind]
        refine walkAll_ok (fun c hc s => ?_) s
        rw [← hops] at hc
        have hchild : ctx.above c = some o := above_eq_some_iff.2 ⟨b, r,
          (h.ops.owner_iff c b).2 hc, (h.blocks.owner_iff b r).2 hb, (h.regions.owner_iff r o).2 hr⟩
        have := hdepth c o hchild
        exact ih (h.hasOp_of_mem hc) (by omega) s
  exact key ho (by omega) s

end Walk

/-! ## The way up -/

/-- An operation is nested in another one. -/
def Around (ctx : Context) (a o : OpRef) : Prop := ∃ p, ctx.above o = some p ∧ ctx.Within p a

theorem Around.within {a : OpRef} (h : ctx.Around a o) : ctx.Within o a := by
  obtain ⟨p, hp, hw⟩ := h
  exact (within_of_above hp).trans hw

/-- What is around the operation above is around the operation. -/
theorem Around.of_above {a p : OpRef} (h : ctx.Around a p) (hp : ctx.above o = some p) :
    ctx.Around a o := ⟨p, hp, h.within⟩

theorem Around.eq_or_around {a p : OpRef} (h : ctx.Around a o) (hp : ctx.above o = some p) :
    a = p ∨ ctx.Around a p := by
  obtain ⟨q, hq, hw⟩ := h
  obtain rfl := Option.some.inj (hp.symm.trans hq)
  exact (within_iff_above.1 hw).imp Eq.symm id

section Enclosing

variable {p : Operation → Bool} {a : OpRef}

theorem enclosingWithin_eq_some (hg : ctx.Grounded) {n : Nat}
    (hrun : ctx.enclosingWithin p n o = .ok (some a)) :
    ctx.Around a o ∧ (∃ row, ctx.op a = .ok row ∧ p row) ∧
      ∀ q, ctx.Around q o → ctx.Within q a → q ≠ a → ∀ row, ctx.op q = .ok row → p row = false := by
  induction n generalizing o with
  | zero => simp [enclosingWithin] at hrun
  | succ n ih =>
    rw [enclosingWithin] at hrun
    obtain ⟨parent, hparent, hrun⟩ := Outcome.bind_eq_ok.1 hrun
    obtain ⟨-, rfl⟩ := parentOp_eq_ok hparent
    cases habove : ctx.above o with
    | none => simp [habove] at hrun
    | some t =>
      simp only [habove, Outcome.bind_eq_ok] at hrun
      obtain ⟨row, hrow, hrun⟩ := hrun
      split at hrun
      · rename_i hp
        simp only [Outcome.pure_eq_ok, Option.some.injEq] at hrun
        subst hrun
        refine ⟨⟨t, habove, .refl t⟩, ⟨row, hrow, hp⟩, fun q hq hw hne => ?_⟩
        rcases hq.eq_or_around habove with e | hq
        · exact absurd e hne
        · exact absurd (hg.antisymm hq.within hw).symm hne
      · rename_i hp
        obtain ⟨haround, hrow', hfirst⟩ := ih hrun
        refine ⟨haround.of_above habove, hrow', fun q hq hw hne row' hrow'' => ?_⟩
        rcases hq.eq_or_around habove with rfl | hq
        · obtain rfl := Except.ok.inj (hrow.symm.trans hrow'')
          exact Bool.not_eq_true _ ▸ hp
        · exact hfirst q hq hw hne row' hrow''

/-- What is met first on the way up is the innermost one. -/
theorem enclosing_eq_some (hg : ctx.Grounded) (hrun : ctx.enclosing p o = .ok (some a)) :
    ctx.Around a o ∧ (∃ row, ctx.op a = .ok row ∧ p row) ∧
      ∀ q, ctx.Around q o → ctx.Within q a → q ≠ a → ∀ row, ctx.op q = .ok row → p row = false :=
  enclosingWithin_eq_some hg hrun

/-- In as many steps as there are operations, everything around an operation is met. -/
theorem Grounded.enclosingWithin_eq_none (hg : ctx.Grounded) (h : ctx.Coherent) (ho : ctx.HasOp o)
    {n : Nat} (hn : ctx.ops.size ≤ n) (hrun : ctx.enclosingWithin p n o = .ok none) :
    ∀ q, ctx.Around q o → ∀ row, ctx.op q = .ok row → p row = false := by
  obtain ⟨depth, hdepth, hsize⟩ := hg.exists_depth h
  have key {n : Nat} {o : OpRef} (hn : depth o < n)
      (hrun : ctx.enclosingWithin p n o = .ok none) :
      ∀ q, ctx.Around q o → ∀ row, ctx.op q = .ok row → p row = false := by
    induction n generalizing o with
    | zero => omega
    | succ n ih =>
      intro q hq row' hrow'
      rw [enclosingWithin] at hrun
      obtain ⟨parent, hparent, hrun⟩ := Outcome.bind_eq_ok.1 hrun
      obtain ⟨-, rfl⟩ := parentOp_eq_ok hparent
      have hq' := hq
      obtain ⟨t, habove, -⟩ := hq'
      simp only [habove, Outcome.bind_eq_ok] at hrun
      obtain ⟨row, hrow, hrun⟩ := hrun
      split at hrun
      · simp at hrun
      · rename_i hp
        rcases hq.eq_or_around habove with rfl | hq
        · obtain rfl := Except.ok.inj (hrow.symm.trans hrow')
          exact Bool.not_eq_true _ ▸ hp
        · have := hdepth o t habove
          exact ih (by omega) hrun q hq row' hrow'
  exact key ((hsize o ho).trans_le hn) hrun

theorem Grounded.enclosing_eq_none (hg : ctx.Grounded) (h : ctx.Coherent) (ho : ctx.HasOp o)
    (hrun : ctx.enclosing p o = .ok none) :
    ∀ q, ctx.Around q o → ∀ row, ctx.op q = .ok row → p row = false :=
  hg.enclosingWithin_eq_none h ho (Nat.le_succ _) hrun

theorem Coherent.enclosingWithin_ok (h : ctx.Coherent) (p : Operation → Bool) (n : Nat)
    (ho : ctx.HasOp o) : ∃ answer, ctx.enclosingWithin p n o = .ok answer := by
  induction n generalizing o with
  | zero => exact ⟨none, rfl⟩
  | succ n ih =>
    rw [enclosingWithin, h.parentOp_ok ho, Outcome.ok_bind]
    cases habove : ctx.above o with
    | none => exact ⟨none, rfl⟩
    | some t =>
      have ht := (h.hasOp_of_above habove).2
      obtain ⟨row, hrow⟩ := hasOp_iff.1 ht
      simp only [hrow, Outcome.ok_bind]
      split
      · exact ⟨some t, rfl⟩
      · exact ih ht

theorem Coherent.enclosing_ok (h : ctx.Coherent) (p : Operation → Bool) (ho : ctx.HasOp o) :
    ∃ answer, ctx.enclosing p o = .ok answer := h.enclosingWithin_ok p _ ho

end Enclosing

end Offload.Context
