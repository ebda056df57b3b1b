import Offload.Proofs.Ir.Evolution
import Offload.Proofs.Ir.Reachable
import Offload.Proofs.Ir.Scope

/-!
# What erasing leaves in use

An operation is erased with everything nested in it. What goes with the tree are
the results of its operations and the arguments of its blocks
(`definedWithin_iff_exists`), but only the results are looked at: no operation that stays
holds one of them, while an argument stays in use wherever it was used outside of
the tree (`Coherent.eraseOp_leaves`). So nothing of the tree stays in use iff its
arguments are used in it alone (`ArgumentsKept`), and they are in every context in
which what is used is in scope (`Coherent.argumentsKept_of_inScope`).
-/

namespace Offload.Context

variable {ctx ctx' : Context} {o : OpRef}

/-- What is defined in a tree: the results of its operations, and the arguments of
    the blocks that they hold. -/
theorem Coherent.definedWithin_iff_exists (h : ctx.Coherent) {v : ValueRef} :
    ctx.DefinedWithin o v ↔ (∃ q, ctx.Within q o ∧ v ∈ ctx.results q) ∨
      ∃ b q, ctx.holder b = some q ∧ ctx.Within q o ∧ v ∈ ctx.args b := by
  constructor
  · rintro ⟨q, hq, hw⟩
    rw [definer] at hq
    split at hq
    · rename_i p n hsource
      obtain rfl := Option.some.inj hq
      exact .inl ⟨p, hw, (mem_results_iff h).2 ⟨n, hsource⟩⟩
    · rename_i b n hsource
      exact .inr ⟨b, q, hq, hw, (mem_args_iff h).2 ⟨n, hsource⟩⟩
    · cases hq
  · rintro (⟨q, hw, hv⟩ | ⟨b, q, hb, hw, hv⟩)
    · exact ⟨q, definer_of_mem_results h hv, hw⟩
    · exact ⟨q, (definer_of_mem_args h hv).trans hb, hw⟩

/-- The arguments of the blocks in the tree of an operation are used in the tree
    alone. -/
def ArgumentsKept (ctx : Context) (o : OpRef) : Prop :=
  ∀ b q, ctx.holder b = some q → ctx.Within q o → ∀ v ∈ ctx.args b, ∀ p,
    v ∈ ctx.heldBy p → ctx.Within p o

/-- An argument is in scope in its own block, and in what is nested in that. -/
theorem Coherent.argumentsKept_of_inScope (h : ctx.Coherent)
    (hscope : ∀ p, ∀ v ∈ ctx.heldBy p, ctx.InScope p v) (o : OpRef) : ctx.ArgumentsKept o := by
  intro b q hb hq v hv p hp
  obtain ⟨n, hsource⟩ := (mem_args_iff h).1 hv
  obtain ⟨w, hw, hin⟩ := hscope p v hp
  rw [hsource] at hin
  have habove : ctx.above w = some q := by rw [above, hin]; exact hb
  exact hw.trans ((within_of_above habove).trans hq)

/-- What an operation holds after others have been marked: nothing if it is one of
    them, and else what it held. -/
theorem Marked.mem_heldBy {tree : List OpRef} (hm : ctx.Marked tree ctx') {p : OpRef}
    {v : ValueRef} : v ∈ ctx'.heldBy p ↔ p ∉ tree ∧ v ∈ ctx.heldBy p := by
  have he := hm.erased p
  rw [heldBy_eq, heldBy_eq, hm.operands]
  by_cases hp : p ∈ tree <;> by_cases hlive : ctx.isErased p <;> simp [he, hp, hlive]

/-- No result of the tree stays in use, but each argument that was used outside. -/
theorem Coherent.eraseOp_leaves (h : ctx.Coherent) (hrun : ctx.eraseOp o = .ok ctx') :
    (∀ p, ctx'.isErased p ↔ ctx.Within p o ∨ ctx.isErased p) ∧
      (∀ p, ∀ v ∈ ctx'.heldBy p, ∀ q, ctx.Within q o → v ∉ ctx.results q) ∧
      ((∀ p, ∀ v ∈ ctx'.heldBy p, ¬ctx.DefinedWithin o v) ↔ ctx.ArgumentsKept o) := by
  obtain ⟨-, -, tree, htree, -, hunused, hm⟩ := h.eraseOp_spec hrun
  have hmem (p : OpRef) : p ∈ tree ↔ ctx.Within p o := h.mem_subtree_iff htree
  have hresults (p : OpRef) (v : ValueRef) (hp : v ∈ ctx'.heldBy p) (q : OpRef)
      (hq : ctx.Within q o) : v ∉ ctx.results q := by
    intro hv
    obtain ⟨hout, hheld⟩ := hm.mem_heldBy.1 hp
    -- the chain of the value has a slot of the user, so the check has met it
    obtain ⟨i, hi⟩ := List.mem_iff_getElem?.1 hheld
    exact hout (hunused q ((hmem q).2 hq) v hv ⟨p, i⟩ ((h.uses.mem_iff v ⟨p, i⟩).2 hi))
  refine ⟨fun p => by rw [hm.erased, hmem], hresults, fun hnone b q hb hq v hv p hp => ?_,
    fun hkept p v hp hd => ?_⟩
  · by_contra hout
    exact hnone p v (hm.mem_heldBy.2 ⟨fun hin => hout ((hmem p).1 hin), hp⟩)
      (h.definedWithin_iff_exists.2 (.inr ⟨b, q, hb, hq, hv⟩))
  · rcases h.definedWithin_iff_exists.1 hd with ⟨q, hq, hv⟩ | ⟨b, q, hb, hq, hv⟩
    · exact hresults p v hp q hq hv
    · obtain ⟨hout, hheld⟩ := hm.mem_heldBy.1 hp
      exact hout ((hmem p).2 (hkept b q hb hq v hv p hheld))

/-- The body of an operation has an argument, which another operation uses; erasing
    the first one succeeds, and the second one keeps the argument. -/
theorem eraseOp_leaves_argument : ∃ ctx ctx' : Context, ctx.Reachable ∧
    ctx.eraseOp ⟨0⟩ = .ok ctx' ∧ (ctx.args ⟨0⟩ = [⟨0⟩] ∧ ctx.holder ⟨0⟩ = some ⟨0⟩) ∧
    (ctx'.isErased ⟨0⟩ ∧ ctx'.heldBy ⟨1⟩ = [⟨0⟩]) ∧
    (∀ p, ctx'.isErased p ↔ ctx.Within p ⟨0⟩ ∨ ctx.isErased p) ∧
    (∀ p, ∀ v ∈ ctx'.heldBy p, ∀ q, ctx.Within q ⟨0⟩ → v ∉ ctx.results q) ∧
    ¬ctx.ArgumentsKept ⟨0⟩ := by
  let outer : Blueprint := ⟨default, ⟨"test", "outer"⟩, [], [], .empty, [⟨0⟩]⟩
  let use : Blueprint := ⟨default, ⟨"test", "use"⟩, [⟨0⟩], [], .empty, []⟩
  let ctx₁ := (empty.addBlock default [⟨0⟩] []).1
  let ctx₂ := (ctx₁.addRegion default [⟨0⟩]).1
  let ctx₃ := (ctx₂.addOp outer).1
  let ctx₄ := (ctx₃.addOp use).1
  have run₁ : empty.createBlock default [⟨0⟩] [] = .ok (ctx₁, ⟨0⟩) := rfl
  have run₂ : ctx₁.createRegion default [⟨0⟩] = .ok (ctx₂, ⟨0⟩) := rfl
  have run₃ : ctx₂.createOp outer = .ok (ctx₃, ⟨0⟩) := rfl
  have run₄ : ctx₃.createOp use = .ok (ctx₄, ⟨1⟩) := rfl
  have hreach : ctx₄.Reachable :=
    (((Relation.ReflTransGen.single (.createBlock (by simp) .nil run₁)).tail
      (.createRegion run₂)).tail (.createOp run₃)).tail (.createOp run₄)
  have hc := hreach.sound.coherent
  have htree : ctx₄.subtree ⟨0⟩ = .ok [⟨0⟩] := rfl
  obtain ⟨ctx₅, run₅⟩ := hc.eraseOp_ok (by decide) rfl htree (by decide) fun o ho v hv => by
    rw [List.mem_singleton.1 ho] at hv
    cases hv
  obtain ⟨herased, hresults, hiff⟩ := hc.eraseOp_leaves run₅
  have hholder : ctx₄.holder ⟨0⟩ = some ⟨0⟩ := rfl
  have hwithin (p : OpRef) : ctx₄.Within p ⟨0⟩ ↔ p = ⟨0⟩ := by
    rw [← hc.mem_subtree_iff htree, List.mem_singleton]
  have hlive : ¬ctx₅.isErased ⟨1⟩ := by
    rw [herased, hwithin]
    decide
  obtain ⟨-, -, _, -, -, -, hm⟩ := hc.eraseOp_spec run₅
  have hheld : ctx₅.heldBy ⟨1⟩ = [⟨0⟩] := (hm.heldBy hlive).trans rfl
  refine ⟨ctx₄, ctx₅, hreach, run₅, ⟨rfl, hholder⟩,
    ⟨(herased ⟨0⟩).2 (.inl (.refl ⟨0⟩)), hheld⟩, herased, hresults, fun hkept => ?_⟩
  exact hiff.2 hkept ⟨1⟩ ⟨0⟩ (hheld ▸ List.mem_cons_self)
    (hc.definedWithin_iff_exists.2 (.inr ⟨⟨0⟩, ⟨0⟩, hholder, .refl ⟨0⟩, List.mem_cons_self⟩))

end Offload.Context
