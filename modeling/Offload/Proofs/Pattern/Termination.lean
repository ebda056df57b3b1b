import Offload.Proofs.Ir.Sound
import Offload.Proofs.Kind
import Offload.Proofs.Pattern.Greedy
import Offload.Proofs.Pattern.Success

/-!
# Runs of patterns that come to an end

If every application of some patterns lowers the size of the program, in an order without
endless descent, then a pass takes only so many operations from the queue
(`Descent.exists_drain`), and only so many passes change anything
(`Descent.exists_runPasses`). For the first a well-founded induction on the size is joined with
one on the queue: what is taken from the queue and left alone shortens it, and
after a change the size is lower, however long the queue may have become.
-/

namespace Offload

/-- Everything in the queue is in the context. -/
def Pass.Queued (pass : Pass) : Prop := ∀ o ∈ pass.queue, pass.context.HasOp o

namespace Greedy

variable {α : Type} [Preorder α] {root o : OpRef} {ctx : Context}

/-- Patterns that do not fault, and lower the size of a program when they are applied. -/
structure Descent (patterns : List Pattern) (root : OpRef) (inv : Context → Prop)
    (size : Context → α) : Prop where
  sound : ∀ {ctx}, inv ctx → ctx.Sound
  hasRoot : ∀ {ctx}, inv ctx → ctx.HasOp root
  exists_attempt : ∀ {ctx o pattern}, inv ctx → ctx.Within o root → o ≠ root → pattern ∈ patterns →
    ∃ answer, pattern.attempt { context := ctx } o = .ok answer ∧
      ∀ e, answer = some e → e.Recorded
  applied : ∀ {ctx o pattern e}, inv ctx → ctx.Within o root → o ≠ root → pattern ∈ patterns →
    pattern.attempt { context := ctx } o = .ok (some e) →
    inv e.context ∧ size e.context < size ctx ∧ ∀ p, ctx.HasOp p → e.context.HasOp p

/-! ## The queue -/

theorem exists_wake (root : OpRef) (h : ctx.Coherent) (n : Nat) {pass : Pass} (hctx : pass.context = ctx)
    (ho : ctx.HasOp o) (hqueued : pass.Queued) :
    ∃ pass', pass.wake root n o = .ok pass' ∧ pass'.Queued := by
  induction n generalizing pass o with
  | zero => exact ⟨pass, rfl, hqueued⟩
  | succ n ih =>
    rw [Pass.wake]
    split
    · exact ⟨pass, rfl, hqueued⟩
    -- with or without the operation in the queue
    have hnext : (pass.enqueue o).context = ctx ∧ (pass.enqueue o).Queued := by
      rw [Pass.enqueue]
      split
      · refine ⟨hctx, fun p hp => ?_⟩
        rcases List.mem_append.1 hp with hp | hp
        · exact hqueued p hp
        · rw [List.mem_singleton.1 hp]
          exact hctx ▸ ho
      · exact ⟨hctx, hqueued⟩
    dsimp only
    rw [hnext.1, h.parentOp_ok ho, Outcome.ok_bind]
    cases habove : ctx.above o with
    | none => exact ⟨_, rfl, hnext.2⟩
    | some p => exact ih hnext.1 (h.hasOp_of_above habove).2 hnext.2

theorem exists_wakeAll (root : OpRef) (h : ctx.Coherent) {os : List OpRef} (pass : Pass)
    (hctx : pass.context = ctx) (hos : ∀ o ∈ os, ctx.HasOp o) (hqueued : pass.Queued) :
    ∃ pass', pass.wakeAll root os = .ok pass' ∧ pass'.Queued := by
  induction os generalizing pass with
  | nil => exact ⟨pass, rfl, hqueued⟩
  | cons o os ih =>
    obtain ⟨pass₁, hwake, hqueued₁⟩ := exists_wake root h (pass.context.ops.size + 1) hctx
      (hos o List.mem_cons_self) hqueued
    have hctx₁ : pass₁.context = ctx := by rw [wake_eq hwake, hctx]
    obtain ⟨pass', hrun, hqueued'⟩ :=
      ih pass₁ hctx₁ (fun p hp => hos p (List.mem_cons_of_mem o hp)) hqueued₁
    exact ⟨pass', by rw [Pass.wakeAll, hwake, Outcome.ok_bind, hrun], hqueued'⟩

/-! ## Runs -/

namespace Descent

variable {patterns : List Pattern} {inv : Context → Prop} {size : Context → α}
  (h : Descent patterns root inv size)

include h

theorem exists_firstApplied (rest : List Pattern) (hrest : ∀ p ∈ rest, p ∈ patterns)
    (hinv : inv ctx) (ho : ctx.Within o root) (hne : o ≠ root) (kind : OpKind) :
    ∃ answer, firstApplied ctx o kind rest = .ok answer ∧ ∀ e, answer = some e → e.Recorded := by
  induction rest with
  | nil => exact ⟨none, rfl, by simp⟩
  | cons pattern rest ih =>
    have ih := ih fun p hp => hrest p (List.mem_cons_of_mem pattern hp)
    rw [firstApplied]
    split
    · obtain ⟨answer, hanswer, hrec⟩ :=
        h.exists_attempt hinv ho hne (hrest pattern List.mem_cons_self)
      rw [hanswer, Outcome.ok_bind]
      cases answer with
      | none => exact ih
      | some e => exact ⟨some e, rfl, hrec⟩
    · exact ih

/-- A visit leaves the program alone, or it lowers the size. -/
theorem exists_visit {greedy : Greedy} (hpatterns : greedy.patterns = patterns) (pass : Pass)
    (hinv : inv pass.context) (ho : pass.context.HasOp o) (hqueued : pass.Queued) :
    ∃ pass', greedy.visit root pass o = .ok pass' ∧ pass'.Queued ∧
      (pass' = pass ∨ inv pass'.context ∧ size pass'.context < size pass.context) := by
  have hs := h.sound hinv
  have hc := hs.coherent
  rw [visit_eq]
  split
  · exact ⟨pass, rfl, hqueued, .inl rfl⟩
  rename_i hskip
  rw [Bool.or_eq_true, decide_eq_true_eq, not_or] at hskip
  obtain ⟨inside, hinside⟩ := hc.isAncestorWithin_ok root (n := pass.context.ops.size + 1) ho
  rw [Context.isAncestor, hinside, Outcome.ok_bind]
  cases inside with
  | false => exact ⟨pass, rfl, hqueued, .inl rfl⟩
  | true =>
    have hw := Context.within_of_isAncestorWithin hinside
    obtain ⟨answer, hanswer, hrec⟩ := h.exists_firstApplied greedy.patterns
      (fun p hp => hpatterns ▸ hp) hinv hw hskip.2 (pass.context.kindOf o)
    simp only [Bool.not_true, Bool.false_eq_true, if_false, Context.kind_ok ho, Outcome.ok_bind,
      hanswer]
    cases answer with
    | none => exact ⟨pass, rfl, hqueued, .inl rfl⟩
    | some e =>
      obtain ⟨pattern, hpattern, hattempt⟩ := firstApplied_eq_some hanswer
      obtain ⟨hinv', hlt, hkeep⟩ := h.applied hinv hw hskip.2 (hpatterns ▸ hpattern) hattempt
      obtain ⟨pass', hwake, hqueued'⟩ := exists_wakeAll root (h.sound hinv').coherent
        { pass with
          context := e.context, changed := o :: pass.changed, changes := pass.changes + 1 } rfl
        (hrec e rfl) fun p hp => hkeep p (hqueued p hp)
      have hctx : pass'.context = e.context := by rw [wakeAll_eq hwake]
      exact ⟨pass', hwake, hqueued', .inr ⟨hctx ▸ hinv', hctx ▸ hlt⟩⟩

variable [WellFoundedLT α]

/-- With a sufficient budget the queue is emptied. -/
theorem exists_drain (greedy : Greedy) (hpatterns : greedy.patterns = patterns) (pass : Pass)
    (hinv : inv pass.context) (hqueued : pass.Queued) :
    ∃ n pass', (∀ m, n ≤ m → greedy.drain root m pass = .ok pass') ∧ inv pass'.context ∧
      (pass'.context = pass.context ∧ pass'.changes = pass.changes ∨
        size pass'.context < size pass.context) := by
  obtain ⟨a, ha⟩ : ∃ a, a = size pass.context := ⟨_, rfl⟩
  induction a using WellFoundedLT.induction generalizing pass with
  | ind a ihsize =>
    obtain ⟨queue, hqueue⟩ : ∃ queue, queue = pass.queue := ⟨_, rfl⟩
    induction queue generalizing pass with
    | nil => exact ⟨0, pass, fun m _ => drain_of_nil hqueue.symm, hinv, .inl ⟨rfl, rfl⟩⟩
    | cons o queue ihqueue =>
      have hmem : ∀ p ∈ o :: queue, pass.context.HasOp p := fun p hp => hqueued p (hqueue ▸ hp)
      obtain ⟨pass₁, hvisit, hqueued₁, hcases⟩ :=
        h.exists_visit hpatterns (pass.taken o queue) hinv (hmem o List.mem_cons_self)
          fun p hp => hmem p (List.mem_cons_of_mem o hp)
      have hnext {n : Nat} {pass' : Pass}
          (hn : ∀ m, n ≤ m → greedy.drain root m pass₁ = .ok pass') :
          ∀ m, n + 1 ≤ m → greedy.drain root m pass = .ok pass' := by
        intro m hm
        obtain ⟨k, rfl⟩ := Nat.exists_eq_add_of_le' hm
        rw [← Nat.add_assoc, drain_succ hqueue.symm, hvisit, Outcome.ok_bind]
        exact hn _ (Nat.le_add_left n k)
      rcases hcases with rfl | ⟨hinv₁, hlt⟩
      · obtain ⟨n, pass', hn, hrest⟩ := ihqueue (pass.taken o queue) hinv hqueued₁ ha rfl
        exact ⟨n + 1, pass', hnext hn, hrest⟩
      · obtain ⟨n, pass', hn, hinv', hcases⟩ := ihsize _ (ha ▸ hlt) pass₁ hinv₁ hqueued₁ rfl
        refine ⟨n + 1, pass', hnext hn, hinv', .inr ?_⟩
        rcases hcases with ⟨e, -⟩ | hlt'
        · exact e ▸ hlt
        · exact hlt'.trans hlt

theorem exists_runPass (hinv : inv ctx) : ∃ budget ctx' changes,
    (∀ greedy : Greedy, greedy.patterns = patterns → budget ≤ greedy.budget →
        greedy.runPass ctx root = .ok (ctx', changes)) ∧
      inv ctx' ∧ (changes = 0 ∨ size ctx' < size ctx) := by
  have hs := h.sound hinv
  obtain ⟨tree, htree⟩ := hs.grounded.subtree_ok hs.coherent (h.hasRoot hinv)
  have hqueued (p : OpRef) (hp : p ∈ tree.tail) : ctx.HasOp p :=
    hs.coherent.hasOp_of_within' ((hs.coherent.mem_subtree_iff htree).1 (List.mem_of_mem_tail hp))
      (h.hasRoot hinv)
  obtain ⟨n, pass, hn, hinv', hcases⟩ := h.exists_drain { patterns } rfl
    (.start ctx tree.tail) hinv hqueued
  refine ⟨n, pass.context, pass.changes, fun greedy hpatterns hbudget => ?_, hinv',
    hcases.imp_left fun hsame => hsame.2⟩
  rw [runPass, Context.nested, htree]
  simp only [Outcome.ok_bind, pure_bind, (drain_congr hpatterns _ _).trans (hn _ hbudget)]
  rfl

/-- With a sufficient budget every run comes to an end, and if it may make enough passes
    nothing is left to do then. -/
theorem exists_runPasses (hinv : inv ctx) : ∃ budget cap, ∀ n passes changes, ∃ ctx' result,
    (∀ greedy : Greedy, greedy.patterns = patterns → budget ≤ greedy.budget →
        greedy.runPasses root n ctx passes changes = .ok (ctx', result)) ∧
      (cap ≤ n → result.reachedFixpoint) := by
  obtain ⟨a, ha⟩ : ∃ a, a = size ctx := ⟨_, rfl⟩
  induction a using WellFoundedLT.induction generalizing ctx with
  | ind a ih =>
    obtain ⟨budget₁, ctx₁, new, hpass, hinv₁, hcases⟩ := h.exists_runPass hinv
    by_cases hnew : new = 0
    · refine ⟨budget₁, 1, fun n passes changes => ?_⟩
      cases n with
      | zero => exact ⟨ctx, ⟨passes, changes, false⟩, fun _ _ _ => rfl, fun hle => by omega⟩
      | succ n =>
        refine ⟨ctx₁, ⟨passes + 1, changes, true⟩, fun greedy hpatterns hbudget => ?_, fun _ => rfl⟩
        rw [runPasses, hpass greedy hpatterns hbudget, Outcome.ok_bind]
        dsimp only
        rw [if_pos hnew]
        rfl
    · obtain ⟨budget₂, cap, hrest⟩ := ih _ (ha ▸ hcases.resolve_left hnew) hinv₁ rfl
      refine ⟨max budget₁ budget₂, cap + 1, fun n passes changes => ?_⟩
      cases n with
      | zero => exact ⟨ctx, ⟨passes, changes, false⟩, fun _ _ _ => rfl, fun hle => by omega⟩
      | succ n =>
        obtain ⟨ctx', result, hrun, hfixpoint⟩ := hrest n (passes + 1) (changes + new)
        refine ⟨ctx', result, fun greedy hpatterns hbudget => ?_, fun hle => hfixpoint (by omega)⟩
        rw [runPasses, hpass greedy hpatterns (by omega), Outcome.ok_bind]
        dsimp only
        rw [if_neg hnew]
        exact hrun greedy hpatterns (by omega)

end Descent

end Greedy

end Offload
