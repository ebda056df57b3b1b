import Offload.Proofs.Parallel.Alongside

/-!
# Passes in lockstep

A pass over a function among others does at the function what a pass over the function
alone does, and in the same order (`Parallel.drain_agree`): the queue of the one, without the
others, is the queue of the other, and so are the operations that were changed. A visit of
one of the others changes neither.

The passes of the two programs need not be equally many, since it takes more until nothing
changes among the others. But a pass that changes nothing can be repeated, so the runs may
be compared pass by pass (`Greedy.Passes`).
-/

namespace Offload

open Context Parallel

/-! ## So many passes -/

namespace Greedy

variable {greedy : Greedy} {root : OpRef} {ctx ctx' : Context}

/-- A number of passes, also beyond one that changes nothing. -/
inductive Passes (greedy : Greedy) (root : OpRef) : Nat → Context → Context → Prop
  | zero {ctx : Context} : Passes greedy root 0 ctx ctx
  | succ {n changes : Nat} {ctx ctx₁ ctx₂ : Context}
    (hpass : greedy.runPass ctx root = .ok (ctx₁, changes)) (hrest : Passes greedy root n ctx₁ ctx₂) :
    Passes greedy root (n + 1) ctx ctx₂

/-- A pass that changes nothing can be made again. -/
theorem passes_of_quiet (hpass : greedy.runPass ctx root = .ok (ctx, 0)) (n : Nat) :
    greedy.Passes root n ctx ctx := by
  induction n with
  | zero => exact .zero
  | succ n ih => exact .succ hpass ih

theorem passes_of_runPasses {n passes changes : Nat} {result : GreedyResult}
    (hrun : greedy.runPasses root n ctx passes changes = .ok (ctx', result)) :
    greedy.Passes root n ctx ctx' := by
  induction n generalizing ctx passes changes with
  | zero =>
    obtain ⟨rfl, -⟩ := Prod.mk.inj (Outcome.pure_eq_ok.1 hrun)
    exact .zero
  | succ n ih =>
    obtain ⟨⟨ctx₁, new⟩, hpass, hrun⟩ := Outcome.bind_eq_ok.1 hrun
    dsimp only at hrun
    split at hrun
    · rename_i hnew
      subst hnew
      obtain ⟨rfl, -⟩ := Prod.mk.inj (Outcome.pure_eq_ok.1 hrun)
      obtain ⟨rfl, -⟩ := runPass_rests hpass
      exact passes_of_quiet hpass (n + 1)
    · exact .succ hpass (ih hrun)

end Greedy

/-! ## One pass -/

/-- A pass over a program with a function among others, and one over the function alone. -/
structure Pass.Alongside (b : Border) (others : OpRef → Prop) (root root' : OpRef)
    (p q : Pairing) (pass pass' : Pass) : Prop where
  contexts : Offload.Alongside b others root root' p q pass.context pass'.context
  queue : Sifted p q pass.queue pass'.queue
  queued : Sifted p q pass.queued pass'.queued
  changed : Sifted p q pass.changed pass'.changed

section

variable {b : Border} {others : OpRef → Prop} {root root' o o' : OpRef} {p q : Pairing}
  {pass pass' pass₁ : Pass}

/-- Queue the operation around another one, and those around it. -/
def Pass.wakeAbove (pass : Pass) (root : OpRef) (n : Nat) (o : OpRef) : Except Fault Pass :=
  pass.context.parentOp o >>= fun parent => parent.elim (pure pass) (pass.wake root n)

theorem Pass.wake_succ (n : Nat) (hne : o ≠ root) : pass.wake root (n + 1) o =
    (pass.enqueue o).wakeAbove root n o := by
  rw [Pass.wake, if_neg hne, Pass.wakeAbove]
  refine congrArg (_ >>= ·) (funext fun parent => ?_)
  cases parent <;> rfl

theorem Pass.wake_root (n : Nat) : pass.wake root n root = .ok pass := by
  cases n with
  | zero => rfl
  | succ n =>
    rw [Pass.wake, if_pos rfl]
    rfl

namespace Pass.Alongside

/-- Of paired operations, both are queued or none. -/
theorem enqueue (h : Pass.Alongside b others root root' p q pass pass') (ho : p.op o o') :
    Pass.Alongside b others root root' p q (pass.enqueue o) (pass'.enqueue o') := by
  have hchanged : pass.changed.contains o = pass'.changed.contains o' := by
    rw [Bool.eq_iff_iff, List.contains_iff_mem, List.contains_iff_mem]
    exact h.changed.mem_iff h.contexts.apart.op ho
  have hqueued : pass.queued.contains o = pass'.queued.contains o' := by
    rw [Bool.eq_iff_iff, List.contains_iff_mem, List.contains_iff_mem]
    exact h.queued.mem_iff h.contexts.apart.op ho
  rw [Pass.enqueue, Pass.enqueue, h.contexts.mine.isErased ho, hchanged, hqueued]
  split
  · exact { h with queue := h.queue.append (.cons ho .nil), queued := .cons ho h.queued }
  · exact h

theorem enqueueOther (h : Pass.Alongside b others root root' p q pass pass') (ho : q.op.Left o) :
    Pass.Alongside b others root root' p q (pass.enqueue o) pass' := by
  rw [Pass.enqueue]
  split
  · exact { h with
      queue := List.append_nil pass'.queue ▸ h.queue.append (.skip ho .nil)
      queued := .skip ho h.queued }
  · exact h

theorem wakeWithin (h : Pass.Alongside b others root root' p q pass pass')
    {depth depth' : OpRef → Nat}
    (hdepth : ∀ o t, pass.context.above o = some t → depth t < depth o)
    (hdepth' : ∀ o t, pass'.context.above o = some t → depth' t < depth' o) {n n' : Nat}
    (ho : p.op o o') (hn : depth o < n) (hn' : depth' o' < n') :
    Agree (Pass.Alongside b others root root' p q) (pass.wake root n o)
      (pass'.wake root' n' o') := by
  induction n generalizing n' pass pass' o o' with
  | zero => omega
  | succ n ih =>
    obtain ⟨n', rfl⟩ := Nat.exists_eq_add_of_lt (Nat.zero_lt_of_lt hn')
    rw [Nat.zero_add] at hn' ⊢
    have hne : o ≠ root := fun e => h.contexts.footing.outside ⟨o', e ▸ ho⟩
    have hne' : o' ≠ root' := fun e => h.contexts.footing.outside' ⟨o, e ▸ ho⟩
    rw [Pass.wake_succ n hne, Pass.wake_succ n' hne']
    -- the operation is queued, or it is not; the contexts stay
    have key {pass₁ pass₁' : Pass} (h₁ : Pass.Alongside b others root root' p q pass₁ pass₁')
        (hctx : pass₁.context = pass.context) (hctx' : pass₁'.context = pass'.context) :
        Agree (Pass.Alongside b others root root' p q) (pass₁.wakeAbove root n o)
          (pass₁'.wakeAbove root' n' o') := by
      rw [Pass.wakeAbove, Pass.wakeAbove]
      by_cases htop : b.top o
      · obtain ⟨habove, habove'⟩ := h₁.contexts.footing.above_top h₁.contexts.mine htop ho
        obtain ⟨hex, hex'⟩ := h₁.contexts.mine.hasOp ho
        rw [h₁.contexts.stable.sound.coherent.parentOp_ok hex,
          h₁.contexts.stable'.sound.coherent.parentOp_ok hex', habove, habove']
        simp only [Outcome.ok_bind, Option.elim_some, Pass.wake_root]
        exact .pure h₁
      refine (h₁.contexts.mine.parentOp ⟨ho, htop⟩).bind_ok fun t t' hrun hrun' ht => ?_
      obtain ⟨-, rfl⟩ := parentOp_eq_ok hrun
      obtain ⟨-, rfl⟩ := parentOp_eq_ok hrun'
      obtain ⟨hx, hx'⟩ | ⟨t, t', hx, hx', ht⟩ := rel_cases ht
      · simp only [hx, hx', Option.elim_none]
        exact .pure h₁
      · simp only [hx, hx', Option.elim_some]
        rw [hctx] at hx
        rw [hctx'] at hx'
        have := hdepth o t hx
        have := hdepth' o' t' hx'
        exact ih h₁ (hctx ▸ hdepth) (hctx' ▸ hdepth') ht (by omega) (by omega)
    exact key (h.enqueue ho) (Greedy.context_enqueue pass o) (Greedy.context_enqueue pass' o')

/-- To wake paired operations queues paired operations. -/
theorem wakeAll (h : Pass.Alongside b others root root' p q pass pass') {os os' : List OpRef}
    (hos : List.Forall₂ p.op os os') : Agree (Pass.Alongside b others root root' p q)
      (pass.wakeAll root os) (pass'.wakeAll root' os') := by
  induction hos generalizing pass pass' with
  | nil => exact .pure h
  | cons ho _ ih =>
    have hs := h.contexts.stable.sound
    have hs' := h.contexts.stable'.sound
    obtain ⟨depth, hdepth, hsize⟩ := hs.grounded.exists_depth hs.coherent
    obtain ⟨depth', hdepth', hsize'⟩ := hs'.grounded.exists_depth hs'.coherent
    obtain ⟨hex, hex'⟩ := h.contexts.mine.hasOp ho
    exact (h.wakeWithin hdepth hdepth' ho ((hsize _ hex).trans (Nat.lt_succ_self _))
      ((hsize' _ hex').trans (Nat.lt_succ_self _))).bind fun _ _ h₁ => ih h₁

theorem wakeOther (h : Pass.Alongside b others root root' p q pass pass') (ho : q.op.Left o)
    {n : Nat} (hrun : pass.wake root n o = .ok pass₁) :
    Pass.Alongside b others root root' p q pass₁ pass' := by
  induction n generalizing pass o with
  | zero => exact Outcome.pure_eq_ok.1 hrun ▸ h
  | succ n ih =>
    obtain ⟨o', hoo⟩ := ho
    obtain rfl := h.contexts.same hoo
    have hne : o ≠ root := fun e => h.contexts.restFooting.outside ⟨o, e ▸ hoo⟩
    rw [Pass.wake_succ n hne] at hrun
    have key {pass₂ : Pass} (h₂ : Pass.Alongside b others root root' p q pass₂ pass')
        (hrun : pass₂.wakeAbove root n o = .ok pass₁) :
        Pass.Alongside b others root root' p q pass₁ pass' := by
      obtain ⟨t, ht, hrun⟩ := Outcome.bind_eq_ok.1 hrun
      by_cases htop : others o
      · obtain ⟨habove, -⟩ := h₂.contexts.restFooting.above_top h₂.contexts.rest htop hoo
        obtain ⟨-, rfl⟩ := parentOp_eq_ok ht
        rw [habove, Option.elim_some, Pass.wake_root] at hrun
        exact Except.ok.inj hrun ▸ h₂
      have hparent := h₂.contexts.rest.parentOp ⟨hoo, htop⟩ _ _ ht ht
      cases hparent with
      | none => exact Outcome.pure_eq_ok.1 hrun ▸ h₂
      | some hparent => exact ih h₂ ⟨_, hparent⟩ hrun
    exact key (h.enqueueOther ⟨o, hoo⟩) hrun

/-- To wake others queues others. -/
theorem wakeAllOther (h : Pass.Alongside b others root root' p q pass pass') {os : List OpRef}
    (hos : ∀ o ∈ os, q.op.Left o) (hrun : pass.wakeAll root os = .ok pass₁) :
    Pass.Alongside b others root root' p q pass₁ pass' := by
  induction os generalizing pass with
  | nil => exact Outcome.pure_eq_ok.1 hrun ▸ h
  | cons o os ih =>
    obtain ⟨pass₂, hwake, hrun⟩ := Outcome.bind_eq_ok.1 hrun
    exact ih (h.wakeOther (hos o List.mem_cons_self) hwake)
      (fun t ht => hos t (List.mem_cons_of_mem _ ht)) hrun

end Pass.Alongside

variable {greedy greedy' : Greedy} (hpatterns : greedy.patterns = patterns)
  (hpatterns' : greedy'.patterns = patterns)

namespace Parallel

include hpatterns

section Paired

include hpatterns'

theorem visit_agree (hempty : b.attributes .empty .empty)
    (h : Pass.Alongside b others root root' p q pass pass') (ho : p.op o o') :
    Agree (fun pass pass' => ∃ p', p.Le p' ∧ Pass.Alongside b others root root' p' q pass pass')
      (greedy.visit root pass o) (greedy'.visit root' pass' o') := by
  have hm := h.contexts.mine
  have hne : o ≠ root := fun e => h.contexts.footing.outside ⟨o', e ▸ ho⟩
  have hne' : o' ≠ root' := fun e => h.contexts.footing.outside' ⟨o, e ▸ ho⟩
  have hsame := Agree.pure (ε := Fault) (r := fun pass pass' => ∃ p', p.Le p' ∧
    Pass.Alongside b others root root' p' q pass pass') ⟨p, .refl p, h⟩
  rw [Greedy.visit_eq, Greedy.visit_eq, hm.isErased ho, decide_eq_false hne, decide_eq_false hne']
  refine .ite Iff.rfl (fun _ => hsame) fun _ => ?_
  refine Agree.bind_ok (r := fun nested nested' => nested = nested') ?_ ?_
  · intro nested nested' hrun hrun'
    have hs := h.contexts.stable.sound
    have hs' := h.contexts.stable'.sound
    have hiff := hs.grounded.isAncestor_iff hs.coherent (a := root) (hm.hasOp ho).1
    have hiff' := hs'.grounded.isAncestor_iff hs'.coherent (a := root') (hm.hasOp ho).2
    rw [hrun, Except.ok.injEq] at hiff
    rw [hrun', Except.ok.injEq] at hiff'
    rw [Bool.eq_iff_iff, hiff, hiff', h.contexts.footing.within_root_iff hm ho]
  rintro nested _ hnested hnested' rfl
  cases nested with
  | false => exact hsame
  | true =>
    refine (hm.kind_agree ho).bind_ok ?_
    rintro kind _ hkind hkind' rfl
    by_cases htop : b.top o
    · -- a top is a function
      obtain rfl : kind = .func := (kind_eq_ok hkind).2.symm.trans (hm.kindOf_top htop)
      rw [hpatterns, hpatterns', firstApplied_func, firstApplied_func]
      exact hsame
    rw [hpatterns, hpatterns']
    refine (h.contexts.apply hempty ⟨ho, htop⟩ (within_of_isAncestorWithin hnested)
      (within_of_isAncestorWithin hnested') kind).bind fun e e' he => ?_
    cases he with
    | none => exact hsame
    | @some e e' he =>
      obtain ⟨p', hle, hcontexts, htouched⟩ := he
      have h₁ : Pass.Alongside b others root root' p' q
          { pass with
            context := e.context
            changed := o :: pass.changed
            changes := pass.changes + 1 }
          { pass' with
            context := e'.context
            changed := o' :: pass'.changed
            changes := pass'.changes + 1 } :=
        ⟨hcontexts, h.queue.mono hle (.refl q), h.queued.mono hle (.refl q),
          .cons (hle.op ho) (h.changed.mono hle (.refl q))⟩
      exact (h₁.wakeAll htouched).mono fun _ _ h₂ => ⟨p', hle, h₂⟩

end Paired

theorem visitOther (h : Pass.Alongside b others root root' p q pass pass') (ho : q.op.Left o)
    (hrun : greedy.visit root pass o = .ok pass₁) :
    ∃ q', q.Le q' ∧ Pass.Alongside b others root root' p q' pass₁ pass' := by
  obtain ⟨o', hoo⟩ := ho
  obtain rfl := h.contexts.same hoo
  have hsame {pass₁ : Pass} (e : pass = pass₁) :
      ∃ q', q.Le q' ∧ Pass.Alongside b others root root' p q' pass₁ pass' :=
    e ▸ ⟨q, .refl q, h⟩
  rw [Greedy.visit_eq] at hrun
  split at hrun
  · exact hsame (Outcome.pure_eq_ok.1 hrun)
  obtain ⟨nested, hnested, hrun⟩ := Outcome.bind_eq_ok.1 hrun
  cases nested with
  | false => exact hsame (Outcome.pure_eq_ok.1 hrun)
  | true =>
    obtain ⟨kind, hkind, hrun⟩ := Outcome.bind_eq_ok.1 hrun
    obtain ⟨applied, happlied, hrun⟩ := Outcome.bind_eq_ok.1 hrun
    rw [hpatterns] at happlied
    cases applied with
    | none => exact hsame (Outcome.pure_eq_ok.1 hrun)
    | some e =>
      have htop : ¬others o := fun htop => by
        obtain rfl : kind = .func :=
          (kind_eq_ok hkind).2.symm.trans (h.contexts.rest.kindOf_top htop)
        rw [firstApplied_func] at happlied
        cases happlied
      obtain ⟨q', hle, hcontexts, htouched⟩ := h.contexts.applyOther ⟨hoo, htop⟩
        (within_of_isAncestorWithin hnested) happlied
      have h₁ : Pass.Alongside b others root root' p q'
          { pass with
            context := e.context
            changed := o :: pass.changed
            changes := pass.changes + 1 } pass' :=
        ⟨hcontexts, h.queue.mono (.refl p) hle, h.queued.mono (.refl p) hle,
          .skip ⟨o, hle.op hoo⟩ (h.changed.mono (.refl p) hle)⟩
      exact ⟨q', hle, h₁.wakeAllOther htouched hrun⟩

include hpatterns'

/-- Emptying the queues keeps the passes in lockstep. -/
theorem drain_agree (hempty : b.attributes .empty .empty)
    (h : Pass.Alongside b others root root' p q pass pass') (n n' : Nat) :
    Agree (fun pass pass' => ∃ p' q', p.Le p' ∧
        Pass.Alongside b others root root' p' q' pass pass')
      (greedy.drain root n pass) (greedy'.drain root' n' pass') := by
  induction n generalizing n' pass pass' p q with
  | zero =>
    generalize hqueue : pass.queue = queue
    generalize hqueue' : pass'.queue = queue'
    have hsifted := h.queue
    rw [hqueue, hqueue'] at hsifted
    cases hsifted with
    | nil =>
      rw [Greedy.drain_of_nil hqueue, Greedy.drain_of_nil hqueue']
      exact .pure ⟨p, q, .refl p, h⟩
    | cons | skip =>
      rw [Greedy.drain_zero hqueue]
      exact .throw_left
  | succ n ih =>
    generalize hqueue : pass.queue = queue
    generalize hqueue' : pass'.queue = queue'
    have hsifted := h.queue
    rw [hqueue, hqueue'] at hsifted
    cases hsifted with
    | nil =>
      rw [Greedy.drain_of_nil hqueue, Greedy.drain_of_nil hqueue']
      exact .pure ⟨p, q, .refl p, h⟩
    | @cons o o' queue queue' ho hrest =>
      cases n' with
      | zero =>
        rw [Greedy.drain_zero hqueue']
        exact .throw_right
      | succ n' =>
        rw [Greedy.drain_succ hqueue, Greedy.drain_succ hqueue']
        have htaken : Pass.Alongside b others root root' p q (pass.taken o queue)
            (pass'.taken o' queue') :=
          ⟨h.contexts, hrest, h.queued.remove h.contexts.apart.op ho, h.changed⟩
        refine (visit_agree hpatterns hpatterns' hempty htaken ho).bind ?_
        rintro pass₁ pass₁' ⟨p', hle, h₁⟩
        exact (ih h₁ n').mono fun _ _ ⟨p₂, q₂, hle₂, h₂⟩ => ⟨p₂, q₂, hle.trans hle₂, h₂⟩
    | @skip o queue _ ho hrest =>
      rw [Greedy.drain_succ hqueue]
      intro pass₂ pass₂' hrun hrun'
      obtain ⟨pass₁, hvisit, hrun⟩ := Outcome.bind_eq_ok.1 hrun
      have htaken : Pass.Alongside b others root root' p q (pass.taken o queue) pass' :=
        ⟨h.contexts, hqueue' ▸ hrest, h.queued.removeOther h.contexts.apart.op ho, h.changed⟩
      obtain ⟨q', -, h₁⟩ := visitOther hpatterns htaken ho hvisit
      exact ih h₁ n' pass₂ pass₂' hrun hrun'

end Parallel

end

/-! ## Runs -/

section

variable {b : Border} {others : OpRef → Prop} {root root' : OpRef} {p q : Pairing}
  {ctx ctx' : Context}

/-- What is nested in the roots. -/
theorem Alongside.nested_agree (h : Alongside b others root root' p q ctx ctx') :
    Agree (Sifted p q) (ctx.nested root) (ctx'.nested root') := by
  intro os os' hrun hrun'
  obtain ⟨tree, htree, hrun⟩ := Outcome.bind_eq_ok.1 hrun
  obtain rfl := Outcome.pure_eq_ok.1 hrun
  obtain ⟨tree', htree', hrun'⟩ := Outcome.bind_eq_ok.1 hrun'
  obtain rfl := Outcome.pure_eq_ok.1 hrun'
  obtain ⟨cs, hcs, htree⟩ := Outcome.bind_eq_ok.1 htree
  obtain ⟨-, rfl⟩ := children_eq_ok hcs
  obtain ⟨os, hos, htree⟩ := Outcome.bind_eq_ok.1 htree
  obtain rfl := Outcome.pure_eq_ok.1 htree
  obtain ⟨cs', hcs', htree'⟩ := Outcome.bind_eq_ok.1 htree'
  obtain ⟨-, rfl⟩ := children_eq_ok hcs'
  obtain ⟨os', hos', htree'⟩ := Outcome.bind_eq_ok.1 htree'
  obtain rfl := Outcome.pure_eq_ok.1 htree'
  refine h.tops.flatMapM (fun o o' ho => h.mine.subtreeWithin _ _ ho) (fun o ho os hos x hx => ?_)
    os os' hos hos'
  obtain ⟨o', hoo⟩ := ho
  obtain rfl := h.same hoo
  have hsame := h.rest.subtreeWithin _ _ hoo os os hos hos
  obtain ⟨x', -, hxx⟩ := Outcome.exists_of_mem_left hsame hx
  exact ⟨x', hxx⟩

variable {greedy greedy' : Greedy} (hpatterns : greedy.patterns = patterns)
  (hpatterns' : greedy'.patterns = patterns)

include hpatterns hpatterns'

theorem Alongside.runPass_agree (hempty : b.attributes .empty .empty)
    (h : Alongside b others root root' p q ctx ctx') :
    Agree (fun c c' => ∃ p' q', p.Le p' ∧ Alongside b others root root' p' q' c.1 c'.1)
      (greedy.runPass ctx root) (greedy'.runPass ctx' root') := by
  refine h.nested_agree.bind fun queue queue' hqueue => ?_
  have hstart : Pass.Alongside b others root root' p q (.start ctx queue) (.start ctx' queue') :=
    ⟨h, hqueue, hqueue, .nil⟩
  refine (drain_agree hpatterns hpatterns' hempty hstart _ _).bind ?_
  rintro pass pass' ⟨p', q', hle, h₁⟩
  exact .pure ⟨p', q', hle, h₁.contexts⟩

theorem Alongside.passes {n : Nat} {ctx₁ ctx₁' : Context} (hempty : b.attributes .empty .empty)
    (h : Alongside b others root root' p q ctx ctx') (hpasses : greedy.Passes root n ctx ctx₁)
    (hpasses' : greedy'.Passes root' n ctx' ctx₁') :
    ∃ p' q', p.Le p' ∧ Alongside b others root root' p' q' ctx₁ ctx₁' := by
  induction hpasses generalizing p q ctx' with
  | zero =>
    cases hpasses'
    exact ⟨p, q, .refl p, h⟩
  | succ hpass _ ih =>
    cases hpasses' with
    | succ hpass' hrest' =>
      obtain ⟨p', q', hle, h₁⟩ := h.runPass_agree hpatterns hpatterns' hempty _ _ hpass hpass'
      obtain ⟨p₂, q₂, hle₂, h₂⟩ := ih h₁ hrest'
      exact ⟨p₂, q₂, hle.trans hle₂, h₂⟩

/-- A run over a function among others leaves the same as one over the function alone. -/
theorem Alongside.run {ctx₁ ctx₁' : Context} {result result' : GreedyResult}
    (hempty : b.attributes .empty .empty) (h : Alongside b others root root' p q ctx ctx')
    (hcap : greedy.maxPasses = greedy'.maxPasses) (hrun : greedy.run ctx root = .ok (ctx₁, result))
    (hrun' : greedy'.run ctx' root' = .ok (ctx₁', result')) :
    ∃ p' q', p.Le p' ∧ Alongside b others root root' p' q' ctx₁ ctx₁' :=
  h.passes hpatterns hpatterns' hempty (Greedy.passes_of_runPasses hrun)
    (hcap ▸ Greedy.passes_of_runPasses hrun')

end

end Offload
