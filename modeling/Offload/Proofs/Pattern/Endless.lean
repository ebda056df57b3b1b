import Offload.Proofs.Pattern.Bounded
import Offload.Proofs.Pattern.Record

/-!
# A pass without an end

An operation that was made in a pass has not been changed in it, so it is looked at in the
same pass. A pattern that puts an operation of a kind before one of this kind is applied to
what it made, and so on: the queue always has such an operation (`Fertile`), every turn
succeeds (`Fertile.exists_visit`), and every budget is used up (`runPass_grow`). All that the
pattern does it does by way of the editor (`obeys_grow`).
-/

namespace Offload

/-- A change by way of an editor: a call of one of its methods, or an attribute that is set. -/
inductive Editor.Edit (e : Editor) : Editor → Prop
  | call {e' : Editor} (run : e.Call e') : Edit e e'
  | setAttribute (o : OpRef) (key : String) (a : Attribute) :
      Edit e ((e.withContext (e.context.setAttribute o key a)).touch o)

/-- A pattern that changes programs by way of the editor alone. -/
def Pattern.Obeys (pattern : Pattern) : Prop := ∀ ctx o e,
  pattern.attempt { context := ctx } o = .ok (some e) →
    Relation.ReflTransGen Editor.Edit { context := ctx } e

namespace Greedy

variable {greedy : Greedy} {root o : OpRef} {ctx ctx' : Context} {pass pass' : Pass}

/-- Put another operation of the kind before one. -/
def grow : Pattern where
  kind? := some ⟨"test", "grow"⟩
  attempt e o := do
    let row ← e.context.op o
    let (e, fresh) ← e.createOp (.bare row.location ⟨"test", "grow"⟩)
    return some (← e.insertOpBefore o fresh)

/-- An operation of the kind that was put somewhere in place of nothing. -/
structure Grown (ctx : Context) (o fresh : OpRef) (ctx' : Context) : Prop where
  sound : ctx'.Sound
  hasOp : ∀ p, ctx.HasOp p → ctx'.HasOp p
  isNew : ¬ctx.HasOp fresh
  bare : ctx'.Bare ⟨"test", "grow"⟩ fresh
  beside : ctx'.above fresh = ctx.above o
  above : ∀ p, ctx.HasOp p → ctx'.above p = ctx.above p

/-- The pattern can be applied to every operation in a block. -/
theorem exists_attempt_grow (h : ctx.Sound) {b : BlockRef} (ho : o ∈ ctx.opsOf b) :
    ∃ e fresh, grow.attempt { context := ctx } o = .ok (some e) ∧ e.touched = [fresh] ∧
      Grown ctx o fresh e.context := by
  have hop : ctx.HasOp o := h.coherent.hasOp_of_mem ho
  obtain ⟨row, hrow⟩ := Context.hasOp_iff.1 hop
  obtain ⟨⟨made, fresh⟩, hmake⟩ :
      ∃ x, ctx.createOp (.bare row.location ⟨"test", "grow"⟩) = .ok x := ⟨_, Context.createOp_bare⟩
  have hcreated := h.createOp_created hmake
  have hne : fresh ≠ o := fun heq => hcreated.isNew (heq ▸ hop)
  obtain ⟨ctx', hmove⟩ := hcreated.sound.coherent.moveOpBefore_ok hcreated.bare.hasOp hne
    (hcreated.opsOf ▸ ho)
  obtain ⟨c, before, after, hc, -, -, hput⟩ :=
    Context.moveOpBefore_put hcreated.sound.coherent hmove
  have habove (p : OpRef) (hp : ctx.HasOp p) : ctx'.above p = ctx.above p := by
    have hp : p ≠ fresh := fun heq => hcreated.isNew (heq ▸ hp)
    rw [hput.above, if_neg hp, Context.above, Context.above, hcreated.blockOf, hcreated.holder]
  have hbeside : made.holder c = ctx.above o := by
    rw [hcreated.holder, Context.above, ← hcreated.blockOf, hc]
    rfl
  -- nothing is in what was just made
  have hout (t : OpRef) (ht : made.holder c = some t) : ¬made.Within t fresh := by
    refine hcreated.bare.not_within hcreated.sound.coherent ?_
    rintro rfl
    rw [hbeside] at ht
    exact hcreated.isNew (h.coherent.hasOp_of_above ht).2
  refine ⟨{ context := ctx', touched := [fresh] }, fresh, ?_, rfl, ?_⟩
  · simp only [grow, Editor.createOp, Editor.insertOpBefore, Editor.withContext, Editor.touch, hrow,
      hmake, Outcome.ok_bind, List.not_mem_nil, if_false, List.nil_append]
    simp [hmove, pure, Except.pure]
  · exact ⟨hcreated.sound.put hput hout,
      fun p hp => hput.relisted.inPlace.hasOp.2 ((hcreated.hasOp p).2 (.inl hp)),
      hcreated.isNew, hcreated.bare.relisted hput.relisted,
      by rw [hput.above, if_pos rfl, hbeside], habove⟩

/-- What leads up to an operation still does. -/
theorem Grown.within {fresh p : OpRef} (hgrown : Grown ctx o fresh ctx') (h : ctx.Coherent)
    (hw : ctx.Within p root) : ctx'.Within p root := by
  refine Relation.ReflTransGen.head_induction_on hw (.refl root) fun {p q} hpq _ ih => ?_
  exact .head ((hgrown.above p (h.hasOp_of_above hpq).1).trans hpq) ih

/-- The pattern is to be applied to an operation. -/
structure Seed (root : OpRef) (ctx : Context) (o : OpRef) : Prop where
  ne_root : o ≠ root
  live : ctx.isErased o = false
  within : ctx.Within o root
  kind : ctx.kindOf o = ⟨"test", "grow"⟩

/-- What the pattern makes is an operation to which it is to be applied. -/
theorem Seed.grown {fresh : OpRef} (hseed : Seed root ctx o) (h : ctx.Coherent)
    (hroot : ctx.HasOp root) (hgrown : Grown ctx o fresh ctx') : Seed root ctx' fresh := by
  obtain ⟨p, hp, hw⟩ := (Context.within_iff_above.1 hseed.within).resolve_left hseed.ne_root
  refine ⟨?_, hgrown.bare.live, ?_, hgrown.bare.kind⟩
  · rintro rfl
    exact hgrown.isNew hroot
  · exact .head (hgrown.beside.trans hp) (hgrown.within h hw)

/-- Patterns of which the only one is this one. -/
theorem firstApplied_grow {kind : OpKind} : firstApplied ctx o kind [grow] =
    if kind = ⟨"test", "grow"⟩ then grow.attempt { context := ctx } o else .ok none := by
  have hkind : grow.kind?.all (· = kind) = decide (kind = ⟨"test", "grow"⟩) := by
    simp [grow, eq_comm]
  rw [firstApplied, hkind]
  by_cases h : kind = ⟨"test", "grow"⟩
  · rw [if_pos (decide_eq_true h), if_pos h]
    cases grow.attempt { context := ctx } o with
    | error e => rfl
    | ok answer => cases answer <;> rfl
  · rw [if_neg (by simpa using h), if_neg h]
    rfl

/-! ## Turns -/

/-- What is woken first is queued. -/
theorem mem_queue_of_wake {n : Nat} (hrun : pass.wake root (n + 1) o = .ok pass') (hne : o ≠ root)
    (hs : pass.InStep) (hlive : pass.context.isErased o = false) (hunchanged : o ∉ pass.changed) :
    o ∈ pass'.queue := by
  rw [Pass.wake, if_neg hne] at hrun
  obtain ⟨parent, -, hrun⟩ := Outcome.bind_eq_ok.1 hrun
  have hqueued : o ∈ (pass.enqueue o).queue := mem_queue_enqueue hs hlive hunchanged
  cases parent with
  | some p => exact (woken_wake hrun).kept hqueued
  | none =>
    obtain rfl := Outcome.pure_eq_ok.1 hrun
    exact hqueued

/-- A pass that has an operation in its queue to which the pattern is to be applied. -/
structure Fertile (root : OpRef) (pass : Pass) : Prop where
  sound : pass.context.Sound
  hasRoot : pass.context.HasOp root
  apart : pass.Apart
  queued : pass.Queued
  changed : ∀ o ∈ pass.changed, pass.context.HasOp o
  seed : ∃ o ∈ pass.queue, Seed root pass.context o

/-- An operation that the pattern is not to be applied to is taken from the queue. -/
theorem Fertile.drop {queue : List OpRef} (h : Fertile root pass)
    (hqueue : pass.queue = o :: queue) (ho : ¬Seed root pass.context o) :
    Fertile root (pass.taken o queue) := by
  obtain ⟨p, hp, hseed⟩ := h.seed
  rw [hqueue] at hp
  refine ⟨h.sound, h.hasRoot, (apart_taken h.apart hqueue).1, fun q hq => h.queued q ?_, h.changed,
    p, ?_, hseed⟩
  · rw [hqueue]
    exact List.mem_cons_of_mem o hq
  · refine (List.mem_cons.1 hp).resolve_left ?_
    rintro rfl
    exact ho hseed

/-- The pattern is applied to an operation of the queue, and what it makes is queued. -/
theorem Fertile.sow {queue : List OpRef} (h : Fertile root pass)
    (hqueue : pass.queue = o :: queue) (ho : Seed root pass.context o) {e : Editor}
    {fresh : OpRef} (htouched : e.touched = [fresh])
    (hgrown : Grown pass.context o fresh e.context) :
    ∃ pass', (afterChange (pass.taken o queue) o e.context).wakeAll root e.touched = .ok pass' ∧
      Fertile root pass' := by
  obtain ⟨htaken, hnew, hunchanged⟩ := apart_taken h.apart hqueue
  have hapart := apart_afterChange htaken hnew hunchanged e.context
  have hseed := ho.grown h.sound.coherent h.hasRoot hgrown
  have hchanged : ∀ p ∈ o :: pass.changed, pass.context.HasOp p := List.forall_mem_cons.2
    ⟨h.queued o (hqueue ▸ List.mem_cons_self), h.changed⟩
  have hold : ∀ p ∈ queue, e.context.HasOp p := fun p hp =>
    hgrown.hasOp p (h.queued p (hqueue ▸ List.mem_cons_of_mem o hp))
  have htouched' : ∀ p ∈ e.touched, e.context.HasOp p := by
    simpa [htouched] using hgrown.bare.hasOp
  obtain ⟨pass', hwake, hqueued⟩ := exists_wakeAll root hgrown.sound.coherent
    (afterChange (pass.taken o queue) o e.context) rfl htouched' hold
  refine ⟨pass', hwake, ?_⟩
  have heq := wakeAll_eq hwake
  have hctx : pass'.context = e.context := by
    rw [heq]
    rfl
  have hin : fresh ∈ pass'.queue := by
    rw [htouched] at hwake
    obtain ⟨pass₁, hfirst, hrest⟩ := Outcome.bind_eq_ok.1 hwake
    rw [← Outcome.pure_eq_ok.1 hrest]
    exact mem_queue_of_wake hfirst hseed.ne_root hapart.inStep hseed.live
      fun hp => hgrown.isNew (hchanged fresh hp)
  refine ⟨hctx ▸ hgrown.sound, hctx ▸ hgrown.hasOp root h.hasRoot, (woken_wakeAll hwake).apart hapart,
    hqueued, fun p hp => ?_, fresh, hin, hctx ▸ hseed⟩
  rw [heq] at hp
  exact hctx ▸ hgrown.hasOp p (hchanged p hp)

/-- Every turn of a fertile pass leads to a fertile one. -/
theorem Fertile.exists_visit {queue : List OpRef} (hgreedy : greedy.patterns = [grow])
    (h : Fertile root pass) (hqueue : pass.queue = o :: queue) :
    ∃ pass', greedy.visit root (pass.taken o queue) o = .ok pass' ∧ Fertile root pass' := by
  have hop : pass.context.HasOp o := h.queued o (hqueue ▸ List.mem_cons_self)
  rw [visit_eq]
  split
  · rename_i hskip
    rw [Bool.or_eq_true, decide_eq_true_eq] at hskip
    refine ⟨_, rfl, h.drop hqueue fun ho => hskip.elim (fun herased => ?_) ho.ne_root⟩
    exact Bool.false_ne_true (ho.live.symm.trans herased)
  rename_i hskip
  rw [Bool.or_eq_true, decide_eq_true_eq, not_or, Bool.not_eq_true] at hskip
  have hinside := h.sound.grounded.isAncestor_iff h.sound.coherent (a := root) hop
  obtain ⟨inside, hancestor⟩ := h.sound.coherent.isAncestorWithin_ok root
    (n := pass.context.ops.size + 1) hop
  rw [Context.isAncestor] at hinside ⊢
  rw [hancestor] at hinside
  rw [context_taken, hancestor, Outcome.ok_bind]
  cases inside with
  | false =>
    refine ⟨_, rfl, h.drop hqueue fun ho => ?_⟩
    cases hinside.2 ho.within
  | true =>
    simp only [Bool.not_true, Bool.false_eq_true, if_false, Context.kind_ok hop, Outcome.ok_bind,
      hgreedy, firstApplied_grow]
    split
    · rename_i hkind
      have ho : Seed root pass.context o := ⟨hskip.2, hskip.1, hinside.1 rfl, hkind⟩
      obtain ⟨p, hp, -⟩ := (Context.within_iff_above.1 ho.within).resolve_left ho.ne_root
      obtain ⟨b, -, hb, -⟩ := Context.above_eq_some_iff.1 hp
      obtain ⟨e, fresh, hattempt, htouched, hgrown⟩ :=
        exists_attempt_grow h.sound ((h.sound.coherent.ops.owner_iff o b).1 hb)
      rw [hattempt, Outcome.ok_bind]
      exact h.sow hqueue ho htouched hgrown
    · rename_i hkind
      exact ⟨_, rfl, h.drop hqueue fun ho => hkind ho.kind⟩

/-- Every budget of a fertile pass is used up. -/
theorem Fertile.drain (hgreedy : greedy.patterns = [grow]) (h : Fertile root pass) (n : Nat) :
    greedy.drain root n pass = .error .endless := by
  induction n generalizing pass with
  | zero =>
    obtain ⟨o, ho, -⟩ := h.seed
    obtain ⟨p, queue, hqueue⟩ := List.exists_cons_of_ne_nil (List.ne_nil_of_mem ho)
    exact drain_zero hqueue
  | succ n ih =>
    obtain ⟨o, ho, -⟩ := h.seed
    obtain ⟨p, queue, hqueue⟩ := List.exists_cons_of_ne_nil (List.ne_nil_of_mem ho)
    obtain ⟨pass', hvisit, h'⟩ := h.exists_visit hgreedy hqueue
    rw [drain_succ hqueue, hvisit, Outcome.ok_bind]
    exact ih h'

/-! ## Passes -/

/-- Where the pattern is to be applied to an operation, a pass never comes to an end. -/
theorem runPass_grow (h : ctx.Sound) (hroot : ctx.HasOp root) (ho : Seed root ctx o)
    (hgreedy : greedy.patterns = [grow]) : greedy.runPass ctx root = .error .endless := by
  obtain ⟨queue, hqueue, horderly⟩ := nested_orderly h hroot
  have hindex := (horderly _ (Nat.le_refl _)).index_queue
  have hfertile : Fertile root (.start ctx queue) :=
    ⟨h, hroot, (horderly _ (Nat.le_refl _)).toApart, hindex, List.forall_mem_nil _, o,
      (h.coherent.mem_nested hqueue ho.ne_root).2 ho.within, ho⟩
  rw [runPass, hqueue, Outcome.ok_bind, hfertile.drain hgreedy]
  rfl

theorem obeys_grow : grow.Obeys := fun ctx o e hrun => by
  obtain ⟨row, -, hrun⟩ := Outcome.bind_eq_ok.1 hrun
  obtain ⟨⟨e₁, fresh⟩, hcreate, hrun⟩ := Outcome.bind_eq_ok.1 hrun
  obtain ⟨e₂, hinsert, hrun⟩ := Outcome.bind_eq_ok.1 hrun
  obtain rfl := Option.some.inj (Outcome.pure_eq_ok.1 hrun)
  exact .tail (.single (.call (.createOp hcreate))) (.call (.insertOpBefore hinsert))

/-- A function with an operation that the pattern is to be applied to. -/
def seeded : String :=
  "func.func @f \x7btype = func.fn(core.nil)\x7d \x7b
  test.grow
  func.return
\x7d"

set_option maxRecDepth 100000 in
theorem exists_seed : ∃ root ctx o, Context.empty.read "f" seeded = (.ok root, ctx) ∧
    ctx.Sound ∧ ctx.HasOp root ∧ Seed root ctx o := by
  have hreads : Build.reads "f" seeded fun root ctx => (ctx.nested root).toOption.any fun queue =>
      queue.any fun o => decide (o ≠ root ∧ ctx.kindOf o = ⟨"test", "grow"⟩) :=
    Build.reads_ofList (by decide +kernel)
  obtain ⟨root, ctx, hread, htest⟩ := Build.exists_of_reads hreads
  obtain ⟨hsound, hroot, -, hlive⟩ := Build.read_built hread
  obtain ⟨queue, hqueue, htest⟩ := (Option.any_eq_true _ _).1 htest
  obtain ⟨o, ho, htest⟩ := List.any_eq_true.1 htest
  obtain ⟨hne, hkind⟩ := of_decide_eq_true htest
  have hw := (hsound.coherent.mem_nested (Outcome.eq_ok_of_toOption hqueue) hne).1 ho
  exact ⟨root, ctx, o, hread, hsound, hroot, hne, hlive o, hw, hkind⟩

/-- That patterns change programs by way of the editor alone does not bring a pass to an
    end. -/
theorem not_forall_ends : ¬∀ patterns : List Pattern, (∀ pattern ∈ patterns, pattern.Obeys) →
    ∀ (ctx : Context) (root : OpRef), ctx.Sound → ctx.HasOp root → Ends patterns root ctx := by
  intro hall
  obtain ⟨root, ctx, o, -, hsound, hroot, hseed⟩ := exists_seed
  have hobeys := List.forall_mem_singleton.2 obeys_grow
  obtain ⟨budget, hends⟩ := hall [grow] hobeys ctx root hsound hroot
  exact hends { patterns := [grow], budget } rfl (Nat.le_refl budget)
    (runPass_grow hsound hroot hseed rfl)

end Greedy

end Offload
