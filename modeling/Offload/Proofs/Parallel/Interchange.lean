import Offload.Proofs.Parallel.Run
import Offload.Proofs.Source.Mention

/-!
# What an interchange changes

A region that leaves the loop or the conditional around it changes the lists of three
blocks: that in which the outer operation was, its own body, and that in which it was
itself (`Swap.Done`). No other list, operand or attribute changes, and what the program
consists of is what it consisted of, with one barrier more after a loop and nothing
more after a conditional (`leave_effect`).
-/

namespace Offload

namespace Context

variable {ctx ctx' : Context} {root o outer : OpRef}

/-- A region was swapped with the operation around it, in a program without erased
    operations. -/
structure Swap.Exact (s : ctx.Swap o outer) (root : OpRef) (added : List OpRef)
    (ctx' : Context) : Prop extends s.Done added ctx' where
  operands : ∀ p, ctx'.operandsOf p = ctx.operandsOf p
  attributes : ∀ p, ctx.HasOp p → ctx'.attributesOf p = ctx.attributesOf p
  tree : ∃ l l', ctx.subtree root = .ok l ∧ ctx'.subtree root = .ok l' ∧
    l'.Perm (added ++ l) ∧ l'.length = l.length + added.length

namespace Swap.Done

variable {s : ctx.Swap o outer} {barriers : List OpRef} (d : s.Done barriers ctx')

include d

theorem attributesOf {p : OpRef} (hp : ctx.HasOp p) : ctx'.attributesOf p = ctx.attributesOf p :=
  d.evolves.readOp hp _ _ fun _ => rfl

theorem nodup_barriers : barriers.Nodup := by
  have hnodup := d.sound.coherent.ops.nodup s.inner
  rw [d.inner] at hnodup
  exact (List.nodup_append.1 (List.nodup_append.1 hnodup).2.1).1

theorem above_barrier (h : ctx.Sound) {p : OpRef} (hp : p ∈ barriers) :
    ctx'.above p = some outer :=
  (d.sound.coherent.above_of_mem (b := s.inner) (by simp [d.inner, hp])).trans
    (d.holder h s.inner_holder)

/-- What the program consists of is what it consisted of and the barriers. -/
theorem within_iff (h : ctx.Stable root) (ho : ctx.Within o root) (hne : o ≠ root) {p : OpRef} :
    ctx'.Within p root ↔ p ∈ barriers ∨ ctx.Within p root := by
  have hc := h.sound.coherent
  -- the outer operation is in a block, and the root is not
  have houter : root ≠ outer := by
    rintro rfl
    have hplace := (hc.ops.owner_iff root s.place).2 (by simp [s.place_ops])
    rw [h.detached] at hplace
    cases hplace
  refine ⟨d.within_before h.sound ho hne, fun hp => ?_⟩
  rcases hp with hp | hp
  · obtain ⟨a, ha, hw⟩ := (within_iff_above.1 ho).resolve_left hne
    obtain rfl := Option.some.inj ((s.above_region hc).symm.trans ha)
    exact (within_of_above (d.above_barrier h.sound hp)).trans (d.within h.sound hw houter)
  · exact d.within h.sound hp houter

theorem tree (h : ctx.Stable root) (ho : ctx.Within o root) (hne : o ≠ root) :
    ∃ l l', ctx.subtree root = .ok l ∧ ctx'.subtree root = .ok l' ∧
      l'.Perm (barriers ++ l) ∧ l'.length = l.length + barriers.length := by
  have hc := h.sound.coherent
  have hc' := d.sound.coherent
  obtain ⟨l, hl⟩ := h.sound.grounded.subtree_ok hc h.hasRoot
  obtain ⟨l', hl'⟩ := d.sound.grounded.subtree_ok hc' (d.evolves.hasOp h.hasRoot)
  -- the barriers are new
  have hnodup : (barriers ++ l).Nodup := by
    refine List.nodup_append.2 ⟨d.nodup_barriers, h.sound.grounded.nodup_subtree hc hl, ?_⟩
    rintro p hp q hq rfl
    exact (d.barriers p hp).1 (hc.hasOp_of_within' ((hc.mem_subtree_iff hl).1 hq) h.hasRoot)
  have hperm : l'.Perm (barriers ++ l) := by
    refine (List.perm_ext_iff_of_nodup (d.sound.grounded.nodup_subtree hc' hl') hnodup).2
      fun p => ?_
    rw [hc'.mem_subtree_iff hl', d.within_iff h ho hne, List.mem_append, hc.mem_subtree_iff hl]
  exact ⟨l, l', hl, hl', hperm, by rw [hperm.length_eq, List.length_append, Nat.add_comm]⟩

theorem exact (h : ctx.Stable root) (hlive : ∀ p, ctx.isErased p = false)
    (ho : ctx.Within o root) (hne : o ≠ root) : s.Exact root barriers ctx' where
  toDone := d
  operands p := d.evolves.operandsOf (by rw [d.erased, hlive]; exact Bool.false_ne_true)
    (by rw [d.held])
  attributes _ := d.attributesOf
  tree := d.tree h ho hne

end Swap.Done

end Context

namespace Parallel

open Context

variable {path text : String} {root : OpRef} {ctx : Context} {findings : Findings}

/-- A region that leaves what is around it is not the root, around which there is nothing. -/
theorem ne_root_of_leave {o : OpRef} {e e' : Editor} (h : e.context.Stable root)
    (hrun : leaveLoop? e o = .ok (some e') ∨ leaveConditional? e o = .ok (some e')) :
    o ≠ root := by
  rintro rfl
  -- either pattern starts by asking for the operation around the region
  have hsole : ∃ outer, soleParent? e.context o = .ok (some outer) := by
    rcases hrun with hrun | hrun
    all_goals
      first | rw [leaveLoop?] at hrun | rw [leaveConditional?] at hrun
      obtain ⟨sole, hsole, hrun⟩ := Outcome.bind_eq_ok.1 hrun
      cases sole with
      | none => cases hrun
      | some outer => exact ⟨outer, hsole⟩
  obtain ⟨outer, hsole⟩ := hsole
  obtain ⟨-, ⟨b, hb, -⟩, -⟩ := soleParent?_spec hsole
  rw [h.detached] at hb
  cases hb

/-- What changes in a valid program when a region leaves what is around it. -/
theorem leave_effect (hread : Context.empty.read path text = (.ok root, ctx))
    (hfindings : ctx.findings root = .ok findings) (hvalid : findings.isEmpty)
    {o : OpRef} (ho : ctx.Within o root) {e' : Editor} :
    (leaveLoop? { context := ctx } o = .ok (some e') →
      ∃ (outer barrier : OpRef) (s : ctx.Swap o outer), ctx.kindOf outer = .loop ∧
        s.Exact root [barrier] e'.context) ∧
    (leaveConditional? { context := ctx } o = .ok (some e') →
      ∃ (outer : OpRef) (s : ctx.Swap o outer), ctx.kindOf outer = .conditional ∧
        s.Exact root [] e'.context) := by
  have h := stable_of_read hread hfindings hvalid
  obtain ⟨-, -, -, hlive⟩ := Build.read_built hread
  constructor
  · intro hrun
    have hne := ne_root_of_leave h (.inl hrun)
    obtain ⟨outer, s, barrier, hkind, d⟩ := leaveLoop?_spec h ho hne hrun
    exact ⟨outer, barrier, s, hkind, d.exact h hlive ho hne⟩
  · intro hrun
    have hne := ne_root_of_leave h (.inr hrun)
    obtain ⟨outer, s, hkind, d⟩ := leaveConditional?_spec h ho hne hrun
    exact ⟨outer, s, hkind, d.exact h hlive ho hne⟩

/-- Two regions, the one alone in a loop and the other alone in a conditional. -/
def loopAndBranch : String :=
  "func.func @f \x7btype = func.fn(core.nil, core.i32, core.i1)\x7d \x7b
  ^bb0(%n: core.i32, %c: core.i1):
    scf.for %n, %n, %n \x7b
      ^bb1(%i: core.i32):
        omp.parallel \x7b
          test.use %i
          omp.terminator
        \x7d
        scf.yield
    \x7d
    scf.if %c \x7b
      omp.parallel \x7b
        test.use %n
        omp.terminator
      \x7d
      scf.yield
    \x7d \x7b
    \x7d
    func.return
\x7d"

set_option maxRecDepth 100000 in
/-- One region leaves the loop, and the other one the conditional. -/
theorem leave_effect_loopAndBranch : ∃ root ctx e₁ e₂,
    Context.empty.read "f" loopAndBranch = (.ok root, ctx) ∧
      leaveLoop? { context := ctx } ⟨2⟩ = .ok (some e₁) ∧
      leaveConditional? { context := ctx } ⟨7⟩ = .ok (some e₂) ∧
      (∃ (outer barrier : OpRef) (s : ctx.Swap ⟨2⟩ outer), s.Exact root [barrier] e₁.context) ∧
      ∃ (outer : OpRef) (s : ctx.Swap ⟨7⟩ outer), s.Exact root [] e₂.context := by
  have hreads : Build.readsAs "f" loopAndBranch fun _ ctx =>
      decide (7 < ctx.ops.size) && ((leaveLoop? { context := ctx } ⟨2⟩).toOption.join.isSome &&
        (leaveConditional? { context := ctx } ⟨7⟩).toOption.join.isSome) :=
    Build.readsAs_ofList (by decide +kernel)
  obtain ⟨root, ctx, findings, hread, hfindings, hvalid, htest⟩ := Build.exists_of_readsAs hreads
  simp only [Bool.and_eq_true, decide_eq_true_eq] at htest
  obtain ⟨hsize, hloop, hconditional⟩ := htest
  obtain ⟨e₁, h₁⟩ := Outcome.exists_of_isSome hloop
  obtain ⟨e₂, h₂⟩ := Outcome.exists_of_isSome hconditional
  have hwithin {n : Nat} (hn : n ≤ 7) : ctx.Within ⟨n⟩ root :=
    Build.read_within hread (Nat.lt_of_le_of_lt hn hsize)
  obtain ⟨outer₁, barrier, s₁, -, d₁⟩ :=
    (leave_effect hread hfindings hvalid (hwithin (n := 2) (by decide))).1 h₁
  obtain ⟨outer₂, s₂, -, d₂⟩ :=
    (leave_effect hread hfindings hvalid (hwithin (n := 7) (by decide))).2 h₂
  exact ⟨root, ctx, e₁, e₂, hread, h₁, h₂, ⟨outer₁, barrier, s₁, d₁⟩, outer₂, s₂, d₂⟩

end Parallel

end Offload
