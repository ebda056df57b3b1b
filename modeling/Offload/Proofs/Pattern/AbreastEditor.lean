import Offload.Pattern.Editor
import Offload.Proofs.Ir.AbreastClone

/-!
# Editors that go alike

Two editors, at contexts that match, that have noted paired operations do so after every
step at paired entities (`Editor.Paired`).
-/

namespace Offload

open Context

/-- Editors of contexts that match, which have noted the same operations. -/
structure Editor.Paired (s : Outset) (p : Pairing) (e e' : Editor) : Prop where
  abreast : Abreast s p e.context e'.context
  touched : List.Forall₂ p.op e.touched e'.touched

namespace Editor

variable {s : Outset} {p q : Pairing} {e e' : Editor} {o o' : OpRef} {b b' : BlockRef}

/-- Two editors are paired after a step, with more pairs than before. -/
def Follows (s : Outset) (p : Pairing) (e e' : Editor) : Prop := ∃ q, p.Le q ∧ Paired s q e e'

namespace Paired

theorem follows (h : Paired s p e e') : Follows s p e e' := ⟨p, .refl p, h⟩

variable (h : Paired s p e e')

include h

theorem touch (ho : p.op o o') : Paired s p (e.touch o) (e'.touch o') := by
  rw [Editor.touch, Editor.touch]
  by_cases hm : o ∈ e.touched
  · rwa [if_pos hm, if_pos ((p.op.mem_iff ho h.touched).1 hm)]
  · rw [if_neg hm, if_neg fun hm' => hm ((p.op.mem_iff ho h.touched).2 hm')]
    exact ⟨h.abreast, List.rel_append h.touched (.cons ho .nil)⟩

theorem touchAll {os os' : List OpRef} (hos : List.Forall₂ p.op os os') :
    Paired s p (e.touchAll os) (e'.touchAll os') := by
  induction hos generalizing e e' with
  | nil => exact h
  | cons ho _ ih => exact ih (h.touch ho)

theorem withContext {ctx ctx' : Context} (hctx : Abreast s q ctx ctx') (hle : p.Le q) :
    Paired s q (e.withContext ctx) (e'.withContext ctx') :=
  ⟨hctx, h.touched.imp fun _ _ => hle.op⟩

/-! ## Movement -/

theorem insertOpBefore {anchor anchor' : OpRef} (ha : p.Inner s.border anchor anchor')
    (ho : p.Inner s.border o o') :
    Agree (Paired s p) (e.insertOpBefore anchor o) (e'.insertOpBefore anchor' o') :=
  (h.abreast.moveOpBefore ha ho).bind fun _ _ h₁ =>
    .pure ((h.withContext h₁ (.refl p)).touch ho.1)

theorem moveOpBefore {anchor anchor' : OpRef} (ho : p.Inner s.border o o')
    (ha : p.Inner s.border anchor anchor') :
    Agree (Paired s p) (e.moveOpBefore o anchor) (e'.moveOpBefore o' anchor') :=
  h.insertOpBefore ha ho

theorem insertOpAtStart (hb : p.block b b') (ho : p.Inner s.border o o') :
    Agree (Paired s p) (e.insertOpAtStart b o) (e'.insertOpAtStart b' o') :=
  (h.abreast.insertOpAt hb ho 0).bind fun _ _ h₁ =>
    .pure ((h.withContext h₁ (.refl p)).touch ho.1)

theorem insertOpAtEnd (hb : p.block b b') (ho : p.Inner s.border o o') :
    Agree (Paired s p) (e.insertOpAtEnd b o) (e'.insertOpAtEnd b' o') :=
  (h.abreast.pushOp hb ho).bind fun _ _ h₁ =>
    .pure ((h.withContext h₁ (.refl p)).touch ho.1)

theorem moveOpsTo (hb : p.block b b') (position : Nat) {os os' : List OpRef}
    (hos : List.Forall₂ (p.Inner s.border) os os') :
    Agree (Paired s p) (Editor.moveOpsTo b e position os)
      (Editor.moveOpsTo b' e' position os') := by
  induction hos generalizing e e' position with
  | nil => exact .pure h
  | cons ho _ ih =>
    rw [Editor.moveOpsTo, Editor.moveOpsTo]
    refine (h.abreast.detachOp ho).bind fun _ _ h₁ => ?_
    refine (h₁.insertOpAt hb ho position).bind fun _ _ h₂ => ?_
    exact ih ((h.withContext h₂ (.refl p)).touch ho.1) (position + 1)

theorem moveOpsToEnd (hb : p.block b b') {os os' : List OpRef}
    (hos : List.Forall₂ (p.Inner s.border) os os') :
    Agree (Paired s p) (Editor.moveOpsToEnd e os b) (Editor.moveOpsToEnd e' os' b') := by
  induction hos generalizing e e' with
  | nil => exact .pure h
  | cons ho _ ih =>
    rw [Editor.moveOpsToEnd, Editor.moveOpsToEnd]
    refine (h.abreast.detachOp ho).bind fun _ _ h₁ => ?_
    refine (h₁.pushOp hb ho).bind fun _ _ h₂ => ?_
    exact ih ((h.withContext h₂ (.refl p)).touch ho.1)

/-! ## Erasure -/

theorem eraseOp (ho : p.Inner s.border o o') :
    Agree (Paired s p) (e.eraseOp o) (e'.eraseOp o') := by
  have key {e e' : Editor} (h : Paired s p e e') : Agree (Paired s p)
      (do
        let context ← (← e.context.detachOp o).eraseOp o
        return { context, touched := e.touched.filter (· ≠ o), erased := e.erased ++ [o] })
      (do
        let context ← (← e'.context.detachOp o').eraseOp o'
        return { context, touched := e'.touched.filter (· ≠ o'), erased := e'.erased ++ [o'] }) := by
    refine (h.abreast.detachOp ho).bind fun _ _ h₂ => (h₂.eraseOp ho).bind fun _ _ h₃ => .pure ?_
    exact ⟨h₃, List.rel_filter (fun q q' hq => by simp [p.op.iff hq ho.1]) h.touched⟩
  refine (h.abreast.parentOp ho).bind fun parent parent' hparent => ?_
  cases hparent with
  | none => exact key h
  | some hparent => exact key (h.touch hparent)

theorem replaceValues {l l' : List (ValueRef × ValueRef)}
    (hl : List.Forall₂ (fun e e' => p.value e.1 e'.1 ∧ p.Operand s.border e.2 e'.2) l l') :
    Agree (Paired s p) (Editor.replaceValues e l) (Editor.replaceValues e' l') := by
  induction hl generalizing e e' with
  | nil => exact .pure h
  | @cons x x' l l' hx _ ih =>
    obtain ⟨old, new⟩ := x
    obtain ⟨old', new'⟩ := x'
    obtain ⟨hold, hnew⟩ : p.value old old' ∧ p.Operand s.border new new' := hx
    refine (h.abreast.replaceAllUses hold hnew).bind fun _ _ h₁ => ?_
    refine ih ((h.withContext h₁ (.refl p)).touchAll ?_)
    rw [List.forall₂_map_left_iff, List.forall₂_map_right_iff]
    exact (h.abreast.uses hold).imp fun _ _ hu => hu.1

theorem replaceOpWithValues (ho : p.Inner s.border o o') {vs vs' : List ValueRef}
    (hvs : List.Forall₂ p.value vs vs') :
    Agree (Paired s p) (e.replaceOpWithValues o vs) (e'.replaceOpWithValues o' vs') := by
  have hresults := h.abreast.results ho
  refine .ite (by rw [hresults.length_eq, hvs.length_eq]) (fun _ => .throw_left) fun _ => ?_
  refine (h.replaceValues ?_).bind fun _ _ h₁ => h₁.eraseOp ho
  exact forall₂_zip hresults (hvs.imp fun _ _ => .inl)

theorem replaceTerminator (hb : p.block b b') (ho : p.Inner s.border o o') :
    Agree (Paired s p) (e.replaceTerminator b o) (e'.replaceTerminator b' o') := by
  refine (h.abreast.terminator? hb).bind fun old old' hold => ?_
  cases hold with
  | none => exact .throw_left
  | some hold => exact (h.eraseOp hold).bind fun _ _ h₁ => h₁.insertOpAtEnd hb ho

theorem cloneOpAtStart (ho : p.Inner s.border o o') (hb : p.block b b') :
    Agree (fun c c' => ∃ q, p.Le q ∧ q.Inner s.border c.2 c'.2 ∧ Paired s q c.1 c'.1)
      (e.cloneOpAtStart o b) (e'.cloneOpAtStart o' b') := by
  refine (h.abreast.cloneOp ho).bind ?_
  rintro ⟨ctx, map, copy⟩ ⟨ctx', map', copy'⟩ ⟨q, hle, hcopy, h₁⟩
  exact ((h.withContext h₁ hle).insertOpAtStart (hle.block hb) hcopy).bind fun _ _ h₂ =>
    .pure ⟨q, hle, hcopy, h₂⟩

end Paired

end Editor

end Offload
