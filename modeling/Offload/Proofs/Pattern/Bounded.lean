import Offload.Proofs.Pattern.Fixpoint
import Offload.Proofs.Pattern.Termination

/-!
# Passes and new operations

What a pass has changed it does not look at again. So it changes every operation at most
once, and after that takes at most all the others from the queue (`orderly_turn`).
But an operation that was made in the pass has not been changed yet. Hence a pass comes to
an end iff it does not make operations without bound (`ends_iff`):

* if there are never more than a number of them, a budget of the square of that number is
  enough (`brief_runPass`);
* this holds of patterns that make no operations (`Meets.size_le`).
-/

namespace Offload

/-- A bound on what a pass may still take from the queue, if there are never more than a
    number of operations. -/
def Pass.potential (bound : Nat) (pass : Pass) : Nat :=
  (bound - pass.changed.length) * (bound + 1) + pass.queue.length

/-- The set beside the queue has what is in the queue. -/
def Pass.InStep (pass : Pass) : Prop := ∀ o, o ∈ pass.queued ↔ o ∈ pass.queue

/-- The queue and the set beside it are in step, the queue and what was changed are apart, and
    nothing is there twice. -/
structure Pass.Apart (pass : Pass) : Prop where
  inStep : pass.InStep
  queue : pass.queue.Nodup
  changed : pass.changed.Nodup
  unchanged : ∀ o ∈ pass.queue, o ∉ pass.changed

/-- Besides, there are never more operations than a number. -/
structure Pass.Orderly (bound : Nat) (pass : Pass) : Prop extends pass.Apart where
  index_queue : ∀ o ∈ pass.queue, o.index < bound
  index_changed : ∀ o ∈ pass.changed, o.index < bound

namespace Greedy

variable {greedy : Greedy} {patterns : List Pattern} {root o : OpRef} {ctx ctx' : Context}
  {pass pass' : Pass} {bound : Nat}

/-- A step that does not say that a budget was used up. -/
def Brief {α : Type} (x : Except Fault α) : Prop := x ≠ .error .endless

namespace Brief

variable {α β : Type}

theorem pure {a : α} : Brief (Pure.pure a) := nofun

theorem bind {x : Except Fault α} {f : α → Except Fault β} (hx : Brief x)
    (hf : ∀ a, Brief (f a)) : Brief (x >>= f) := fun h => by
  obtain h | ⟨a, -, h⟩ := Outcome.bind_eq_error.1 h
  · exact hx h
  · exact hf a h

theorem found {x : Option α} : Brief (Offload.found x) := by
  cases x <;> nofun

end Brief

/-- The first operation of the queue is looked at. -/
def Turn (greedy : Greedy) (root : OpRef) (pass pass' : Pass) : Prop :=
  ∃ o queue, pass.queue = o :: queue ∧ greedy.visit root (pass.taken o queue) o = .ok pass'

/-- A number of operations are looked at. -/
def Turns (greedy : Greedy) (root : OpRef) : Pass → Pass → Prop :=
  Relation.ReflTransGen (greedy.Turn root)

/-- A context that a pass comes to. -/
def Meets (patterns : List Pattern) (root : OpRef) (ctx ctx' : Context) : Prop :=
  ∃ queue pass, ctx.nested root = .ok queue ∧ pass.context = ctx' ∧
    Turns { patterns } root (.start ctx queue) pass

/-- A pass comes to an end: a sufficient budget is not used up. -/
def Ends (patterns : List Pattern) (root : OpRef) (ctx : Context) : Prop :=
  ∃ budget, ∀ greedy : Greedy, greedy.patterns = patterns → budget ≤ greedy.budget →
    Brief (greedy.runPass ctx root)

/-! ## The queue -/

/-- Distinct operations with small numbers are few. -/
theorem length_le_of_index {os : List OpRef} (hnodup : os.Nodup)
    (hos : ∀ o ∈ os, o.index < bound) : os.length ≤ bound := by
  have hmap : (os.map (·.index)).Nodup := hnodup.map fun _ _ h => OpRef.index_inj.1 h
  have hsub : os.map (·.index) ⊆ List.range bound := fun n hn => by
    obtain ⟨o, ho, rfl⟩ := List.mem_map.1 hn
    exact List.mem_range.2 (hos o ho)
  simpa using (List.subperm_of_subset hmap hsub).length_le

/-- What is queued when operations are woken is there, and unchanged. -/
structure Woken (pass pass' : Pass) : Prop where
  eq : pass' = { pass with queue := pass'.queue, queued := pass'.queued }
  inStep : pass.InStep → pass'.InStep
  nodup : pass.InStep → pass.queue.Nodup → pass'.queue.Nodup
  kept : pass.queue ⊆ pass'.queue
  added : ∀ o ∈ pass'.queue, o ∈ pass.queue ∨ o ∉ pass.changed ∧ pass.context.HasOp o

theorem Woken.refl (pass : Pass) : Woken pass pass :=
  ⟨rfl, id, fun _ => id, List.Subset.refl _, fun _ => .inl⟩

theorem Woken.trans {pass₁ pass₂ : Pass} (h₁ : Woken pass pass₁) (h₂ : Woken pass₁ pass₂) :
    Woken pass pass₂ := by
  have heq := h₁.eq
  refine ⟨?_, fun hs => h₂.inStep (h₁.inStep hs), fun hs h => h₂.nodup (h₁.inStep hs) (h₁.nodup hs h),
    List.Subset.trans h₁.kept h₂.kept, fun o ho => ?_⟩
  · have h := h₂.eq
    rw [heq] at h
    exact h
  · obtain ho | ho := h₂.added o ho
    · exact h₁.added o ho
    · rw [heq] at ho
      exact .inr ho

/-- An operation is queued, or it stays where it is. -/
theorem woken_enqueue (ho : pass.context.HasOp o) : Woken pass (pass.enqueue o) := by
  rw [Pass.enqueue]
  split
  · rename_i hasleep
    simp only [Bool.and_eq_true, Bool.not_eq_true', List.contains_eq_mem,
      decide_eq_false_iff_not] at hasleep
    obtain ⟨⟨-, hunchanged⟩, hnew⟩ := hasleep
    refine ⟨rfl, fun hs p => ?_, fun hs h => ?_, List.subset_append_left _ _, fun p hp => ?_⟩
    · rw [List.mem_cons, List.mem_append, List.mem_singleton, hs p, or_comm]
    · -- what is not in the set is not in the queue
      refine List.nodup_append.2 ⟨h, List.nodup_singleton o, ?_⟩
      rintro p hp q hq rfl
      exact hnew ((hs o).2 (List.mem_singleton.1 hq ▸ hp))
    · obtain hp | hp := List.mem_append.1 hp
      · exact .inl hp
      · obtain rfl := List.mem_singleton.1 hp
        exact .inr ⟨hunchanged, ho⟩
  · exact .refl pass

/-- What is still to be looked at is in the queue after that. -/
theorem mem_queue_enqueue (hs : pass.InStep) (hlive : pass.context.isErased o = false)
    (hunchanged : o ∉ pass.changed) : o ∈ (pass.enqueue o).queue := by
  rw [Pass.enqueue]
  by_cases hqueued : o ∈ pass.queued
  · rw [if_neg (by simp [hqueued])]
    exact (hs o).1 hqueued
  · rw [if_pos (by simp [hlive, hunchanged, hqueued])]
    exact List.mem_append_right _ List.mem_cons_self

theorem woken_wake {n : Nat} (hrun : pass.wake root n o = .ok pass') : Woken pass pass' := by
  induction n generalizing pass o with
  | zero =>
    obtain rfl := Outcome.pure_eq_ok.1 hrun
    exact .refl pass
  | succ n ih =>
    rw [Pass.wake] at hrun
    split at hrun
    · obtain rfl := Outcome.pure_eq_ok.1 hrun
      exact .refl pass
    obtain ⟨parent, hparent, hrun⟩ := Outcome.bind_eq_ok.1 hrun
    rw [context_enqueue] at hparent
    have hwoken := woken_enqueue (Context.parentOp_eq_ok hparent).1
    cases parent with
    | some p => exact hwoken.trans (ih hrun)
    | none =>
      obtain rfl := Outcome.pure_eq_ok.1 hrun
      exact hwoken

theorem woken_wakeAll {os : List OpRef} (hrun : pass.wakeAll root os = .ok pass') :
    Woken pass pass' := by
  induction os generalizing pass with
  | nil =>
    obtain rfl := Outcome.pure_eq_ok.1 hrun
    exact .refl pass
  | cons o os ih =>
    obtain ⟨pass₁, hwake, hrun⟩ := Outcome.bind_eq_ok.1 hrun
    exact (woken_wake hwake).trans (ih hrun)

/-! ## Turns -/

/-- The pass after an operation was changed, before others are woken. -/
def afterChange (pass : Pass) (o : OpRef) (ctx : Context) : Pass :=
  { pass with context := ctx, changed := o :: pass.changed, changes := pass.changes + 1 }

/-- A visit leaves a pass as it is, or it counts the operation among those that were
    changed, and queues others. -/
theorem visit_woken (hrun : greedy.visit root pass o = .ok pass') :
    pass' = pass ∨ pass.context.HasOp o ∧ ∃ context, Woken (afterChange pass o context) pass' := by
  rw [visit_eq] at hrun
  split at hrun
  · exact .inl (Outcome.pure_eq_ok.1 hrun).symm
  obtain ⟨nested, -, hrun⟩ := Outcome.bind_eq_ok.1 hrun
  cases nested with
  | false => exact .inl (Outcome.pure_eq_ok.1 hrun).symm
  | true =>
    obtain ⟨kind, hkind, hrun⟩ := Outcome.bind_eq_ok.1 hrun
    obtain ⟨applied, -, hrun⟩ := Outcome.bind_eq_ok.1 hrun
    cases applied with
    | none => exact .inl (Outcome.pure_eq_ok.1 hrun).symm
    | some e => exact .inr ⟨(Context.kind_eq_ok hkind).1, e.context, woken_wakeAll hrun⟩

/-- What is taken from the queue is nowhere else, and the rest is in step. -/
theorem apart_taken {queue : List OpRef} (h : pass.Apart) (hqueue : pass.queue = o :: queue) :
    (pass.taken o queue).Apart ∧ o ∉ queue ∧ o ∉ pass.changed := by
  obtain ⟨hs, hq, hc, hu⟩ := h
  rw [hqueue] at hq hu
  obtain ⟨ho, hq⟩ := List.nodup_cons.1 hq
  obtain ⟨huo, hu⟩ := List.forall_mem_cons.1 hu
  refine ⟨⟨fun p => ?_, hq, hc, hu⟩, ho, huo⟩
  rw [Pass.taken, List.mem_filter, hs p, hqueue, List.mem_cons, decide_eq_true_eq]
  constructor
  · rintro ⟨rfl | hp, hne⟩
    · exact absurd rfl hne
    · exact hp
  · intro hp
    refine ⟨.inr hp, ?_⟩
    rintro rfl
    exact ho hp

/-- An operation is changed that is not in the queue. -/
theorem apart_afterChange (h : pass.Apart) (ho : o ∉ pass.queue) (hunchanged : o ∉ pass.changed)
    (ctx : Context) : (afterChange pass o ctx).Apart := by
  refine ⟨h.inStep, h.queue, List.nodup_cons.2 ⟨hunchanged, h.changed⟩, fun p hp => ?_⟩
  refine List.not_mem_cons_of_ne_of_not_mem ?_ (h.unchanged p hp)
  rintro rfl
  exact ho hp

theorem Woken.apart (hwoken : Woken pass pass') (h : pass.Apart) : pass'.Apart := by
  have hchanged : pass'.changed = pass.changed := by rw [hwoken.eq]
  refine ⟨hwoken.inStep h.inStep, hwoken.nodup h.inStep h.queue, hchanged ▸ h.changed,
    fun p hp => ?_⟩
  rw [hchanged]
  obtain hp | ⟨hp, -⟩ := hwoken.added p hp
  · exact h.unchanged p hp
  · exact hp

/-- A turn keeps the queue, the set beside it and what was changed in step. -/
theorem apart_turn (h : pass.Apart) (hturn : greedy.Turn root pass pass') : pass'.Apart := by
  obtain ⟨o, queue, hqueue, hvisit⟩ := hturn
  obtain ⟨htaken, ho, hunchanged⟩ := apart_taken h hqueue
  obtain rfl | ⟨-, ctx, hwoken⟩ := visit_woken hvisit
  · exact htaken
  · exact hwoken.apart (apart_afterChange htaken ho hunchanged ctx)

/-- So they are in step throughout a pass. -/
theorem apart_turns (h : pass.Apart) (hturns : greedy.Turns root pass pass') : pass'.Apart := by
  induction hturns with
  | refl => exact h
  | tail _ hturn ih => exact apart_turn ih hturn

/-- A change takes from the potential what a whole queue can add to it. -/
theorem potential_lt (hchanged : pass'.changed = o :: pass.changed) (h : pass'.Orderly bound) :
    pass'.potential bound < pass.potential bound := by
  have hlong := length_le_of_index h.queue h.index_queue
  have hmany := length_le_of_index h.changed h.index_changed
  rw [hchanged, List.length_cons] at hmany
  rw [Pass.potential, Pass.potential, hchanged, List.length_cons]
  obtain ⟨rest, hrest⟩ := Nat.exists_eq_add_of_le hmany
  have hless : bound - (pass.changed.length + 1) = rest := by omega
  have hmore : bound - pass.changed.length = rest + 1 := by omega
  rw [hless, hmore, Nat.succ_mul]
  omega

/-- A turn keeps a pass orderly, and takes from what it may still take. -/
theorem orderly_turn (h : pass.Orderly bound)
    (hturn : greedy.Turn root pass pass') (hsize : pass'.context.ops.size ≤ bound) :
    pass'.Orderly bound ∧ pass'.potential bound < pass.potential bound := by
  have hapart := apart_turn h.toApart hturn
  obtain ⟨o, queue, hqueue, hvisit⟩ := hturn
  have hindex := h.index_queue
  rw [hqueue] at hindex
  obtain ⟨ho, hrest⟩ := List.forall_mem_cons.1 hindex
  obtain rfl | ⟨-, ctx, hwoken⟩ := visit_woken hvisit
  · refine ⟨⟨hapart, hrest, h.index_changed⟩, ?_⟩
    simp [Pass.potential, Pass.taken, hqueue]
  · have hchanged : pass'.changed = o :: pass.changed := by rw [hwoken.eq]; rfl
    have hctx : pass'.context = ctx := by rw [hwoken.eq]; rfl
    have horderly : pass'.Orderly bound := by
      refine ⟨hapart, fun p hp => ?_, hchanged ▸ List.forall_mem_cons.2 ⟨ho, h.index_changed⟩⟩
      obtain hp | ⟨-, hp⟩ := hwoken.added p hp
      · exact hrest p hp
      · exact Nat.lt_of_lt_of_le hp (hctx ▸ hsize)
    exact ⟨horderly, potential_lt hchanged horderly⟩

/-! ## Budgets -/

theorem brief_parentOp : Brief (ctx.parentOp o) := by
  refine Brief.found.bind fun row => ?_
  cases row.parent with
  | none => exact .pure
  | some b =>
    refine Brief.found.bind fun row => ?_
    cases row.parent with
    | none => exact .pure
    | some r => exact Brief.found.bind fun _ => .pure

theorem brief_isAncestorWithin {n : Nat} : Brief (ctx.isAncestorWithin root n o) := by
  induction n generalizing o with
  | zero => exact .pure
  | succ n ih =>
    rw [Context.isAncestorWithin]
    split
    · exact .pure
    · refine brief_parentOp.bind fun parent => ?_
      cases parent with
      | none => exact .pure
      | some p => exact ih

theorem brief_wake {n : Nat} : Brief (pass.wake root n o) := by
  induction n generalizing pass o with
  | zero => exact .pure
  | succ n ih =>
    rw [Pass.wake]
    split
    · exact .pure
    · refine brief_parentOp.bind fun parent => ?_
      cases parent with
      | none => exact .pure
      | some p => exact ih

theorem brief_wakeAll {os : List OpRef} : Brief (pass.wakeAll root os) := by
  induction os generalizing pass with
  | nil => exact .pure
  | cons o os ih => exact brief_wake.bind fun _ => ih

theorem brief_firstApplied {kind : OpKind} (h : ∀ pattern ∈ patterns,
    Brief (pattern.attempt { context := ctx } o)) : Brief (firstApplied ctx o kind patterns) := by
  induction patterns with
  | nil => exact .pure
  | cons pattern rest ih =>
    obtain ⟨hfirst, hrest⟩ := List.forall_mem_cons.1 h
    rw [firstApplied]
    split
    · refine hfirst.bind fun answer => ?_
      cases answer with
      | none => exact ih hrest
      | some e => exact .pure
    · exact ih hrest

/-- Looking at an operation uses up no budget, if applying patterns does not. -/
theorem brief_visit (h : ∀ pattern ∈ greedy.patterns, ∀ ctx o,
    Brief (pattern.attempt { context := ctx } o)) : Brief (greedy.visit root pass o) := by
  rw [visit_eq]
  split
  · exact .pure
  refine brief_isAncestorWithin.bind fun nested => ?_
  split
  · exact .pure
  refine (Brief.found.bind fun _ => .pure : Brief (pass.context.kind o)).bind fun kind => ?_
  refine (brief_firstApplied fun pattern hp => h pattern hp _ _).bind fun answer => ?_
  cases answer with
  | none => exact .pure
  | some e => exact brief_wakeAll

/-- If there are never more than a number of operations, a pass takes so many from the queue
    as it may still take. -/
theorem brief_drain (h : ∀ pattern ∈ greedy.patterns, ∀ ctx o,
      Brief (pattern.attempt { context := ctx } o)) {n : Nat}
    (horderly : pass.Orderly bound)
    (hsize : ∀ pass', greedy.Turns root pass pass' → pass'.context.ops.size ≤ bound)
    (hn : pass.potential bound ≤ n) : Brief (greedy.drain root n pass) := by
  induction n generalizing pass with
  | zero =>
    have hempty : pass.queue = [] := by
      rw [Pass.potential] at hn
      exact List.eq_nil_of_length_eq_zero (by omega)
    rw [drain_of_nil hempty]
    exact .pure
  | succ n ih =>
    cases hqueue : pass.queue with
    | nil =>
      rw [drain_of_nil hqueue]
      exact .pure
    | cons o queue =>
      rw [drain_succ hqueue]
      intro hrun
      obtain hvisit | ⟨pass₁, hvisit, hrun⟩ := Outcome.bind_eq_error.1 hrun
      · exact brief_visit h hvisit
      · have hturn : greedy.Turn root pass pass₁ := ⟨o, queue, hqueue, hvisit⟩
        obtain ⟨horderly₁, hlt⟩ := orderly_turn horderly hturn (hsize pass₁ (.single hturn))
        exact ih horderly₁ (fun pass' hturns => hsize pass' (.head hturn hturns)) (by omega) hrun

/-- Where no turn is left there is nothing but the pass itself. -/
theorem bound_of_last (hlast : ∀ pass₁, ¬greedy.Turn root pass pass₁) :
    ∃ bound, ∀ pass', greedy.Turns root pass pass' → pass'.context.ops.size ≤ bound := by
  refine ⟨pass.context.ops.size, fun pass' hturns => ?_⟩
  obtain rfl | ⟨pass₁, hturn, -⟩ := Relation.ReflTransGen.cases_head hturns
  · exact Nat.le_refl _
  · exact absurd hturn (hlast pass₁)

/-- A pass that does not use up its budget comes to finitely many contexts. -/
theorem exists_bound {n : Nat} (h : Brief (greedy.drain root n pass)) :
    ∃ bound, ∀ pass', greedy.Turns root pass pass' → pass'.context.ops.size ≤ bound := by
  induction n generalizing pass with
  | zero => exact bound_of_last fun pass₁ ⟨o, queue, hqueue, _⟩ => h (drain_zero hqueue)
  | succ n ih =>
    cases hqueue : pass.queue with
    | nil =>
      refine bound_of_last fun pass₁ ⟨o, queue, hqueue', _⟩ => ?_
      rw [hqueue] at hqueue'
      cases hqueue'
    | cons o queue =>
      have hnext {pass₁} (hturn : greedy.Turn root pass pass₁) :
          greedy.visit root (pass.taken o queue) o = .ok pass₁ := by
        obtain ⟨o', queue', hqueue', hvisit⟩ := hturn
        obtain ⟨rfl, rfl⟩ := List.cons.inj (hqueue.symm.trans hqueue')
        exact hvisit
      rw [drain_succ hqueue] at h
      cases hvisit : greedy.visit root (pass.taken o queue) o with
      | error e =>
        refine bound_of_last fun pass₁ hturn => ?_
        rw [hnext hturn] at hvisit
        cases hvisit
      | ok pass₁ =>
        rw [hvisit, Outcome.ok_bind] at h
        obtain ⟨bound, hbound⟩ := ih h
        refine ⟨max pass.context.ops.size bound, fun pass' hturns => ?_⟩
        obtain rfl | ⟨pass₂, hturn, hturns⟩ := Relation.ReflTransGen.cases_head hturns
        · exact Nat.le_max_left _ _
        · obtain rfl := Except.ok.inj (hvisit.symm.trans (hnext hturn))
          exact Nat.le_trans (hbound pass' hturns) (Nat.le_max_right _ _)

/-! ## Passes -/

/-- In a sound context a pass starts with distinct operations. -/
theorem apart_start (h : ctx.Sound) {queue : List OpRef} (hqueue : ctx.nested root = .ok queue) :
    (Pass.start ctx queue).Apart := by
  obtain ⟨tree, htree, hqueue⟩ := Outcome.bind_eq_ok.1 hqueue
  obtain rfl := Outcome.pure_eq_ok.1 hqueue
  exact ⟨fun _ => Iff.rfl, (h.grounded.nodup_subtree h.coherent htree).tail, .nil,
    fun _ _ => List.not_mem_nil⟩

/-- Besides, they are there. -/
theorem nested_orderly (h : ctx.Sound) (hroot : ctx.HasOp root) : ∃ queue,
    ctx.nested root = .ok queue ∧ ∀ bound, ctx.ops.size ≤ bound →
      (Pass.start ctx queue).Orderly bound := by
  obtain ⟨tree, htree⟩ := h.grounded.subtree_ok h.coherent hroot
  have hqueue : ctx.nested root = .ok tree.tail := by
    rw [Context.nested, htree]
    rfl
  refine ⟨tree.tail, hqueue, fun bound hbound => ?_⟩
  refine ⟨apart_start h hqueue, fun o ho => ?_, List.forall_mem_nil _⟩
  have hin := (h.coherent.mem_subtree_iff htree).1 (List.mem_of_mem_tail ho)
  exact Nat.lt_of_lt_of_le (h.coherent.hasOp_of_within' hin hroot) hbound

theorem brief_runPass_iff (hgreedy : greedy.patterns = patterns) {queue : List OpRef}
    (hqueue : ctx.nested root = .ok queue) : Brief (greedy.runPass ctx root) ↔
      Brief (({ patterns } : Greedy).drain root greedy.budget (.start ctx queue)) := by
  have hsame : greedy.patterns = ({ patterns } : Greedy).patterns := hgreedy
  rw [runPass, hqueue, Outcome.ok_bind, drain_congr hsame]
  refine ⟨fun h hrun => h ?_, fun h => h.bind fun _ => .pure⟩
  rw [hrun]
  rfl

/-- If there are never more than a number of operations, a budget of its square is enough,
    about. -/
theorem brief_runPass (h : ctx.Sound) (hroot : ctx.HasOp root)
    (hpatterns : ∀ pattern ∈ patterns, ∀ ctx o, Brief (pattern.attempt { context := ctx } o))
    (hbound : ∀ ctx', Meets patterns root ctx ctx' → ctx'.ops.size ≤ bound)
    (hgreedy : greedy.patterns = patterns) (hbudget : (bound + 1) * (bound + 1) ≤ greedy.budget) :
    Brief (greedy.runPass ctx root) := by
  obtain ⟨queue, hqueue, horderly⟩ := nested_orderly h hroot
  have horderly := horderly bound (hbound ctx ⟨queue, _, hqueue, rfl, .refl⟩)
  refine (brief_runPass_iff hgreedy hqueue).2 (brief_drain hpatterns horderly
    (fun pass' hturns => hbound _ ⟨queue, pass', hqueue, rfl, hturns⟩) ?_)
  have hlong : queue.length ≤ bound := length_le_of_index horderly.queue horderly.index_queue
  have hsquare : (bound + 1) * (bound + 1) = bound * (bound + 1) + (bound + 1) :=
    Nat.succ_mul bound (bound + 1)
  rw [Pass.potential, Pass.start, List.length_nil, Nat.sub_zero]
  dsimp only
  omega

/-- A pass that comes to an end comes to finitely many contexts. -/
theorem exists_bound_of_ends (h : ctx.Sound) (hroot : ctx.HasOp root)
    (hends : Ends patterns root ctx) :
    ∃ bound, ∀ ctx', Meets patterns root ctx ctx' → ctx'.ops.size ≤ bound := by
  obtain ⟨queue, hqueue, -⟩ := nested_orderly h hroot
  obtain ⟨budget, hends⟩ := hends
  have hpass := hends { patterns, budget } rfl (Nat.le_refl budget)
  obtain ⟨bound, hbound⟩ := exists_bound ((brief_runPass_iff rfl hqueue).1 hpass)
  refine ⟨bound, ?_⟩
  rintro _ ⟨queue', pass, hqueue', rfl, hturns⟩
  obtain rfl := Except.ok.inj (hqueue.symm.trans hqueue')
  exact hbound pass hturns

/-- A pass comes to an end iff it does not make operations without bound. -/
theorem ends_iff (h : ctx.Sound) (hroot : ctx.HasOp root)
    (hpatterns : ∀ pattern ∈ patterns, ∀ ctx o, Brief (pattern.attempt { context := ctx } o)) :
    Ends patterns root ctx ↔
      ∃ bound, ∀ ctx', Meets patterns root ctx ctx' → ctx'.ops.size ≤ bound :=
  ⟨exists_bound_of_ends h hroot, fun ⟨bound, hbound⟩ => ⟨(bound + 1) * (bound + 1), fun _ =>
    brief_runPass h hroot hpatterns hbound⟩⟩

/-- If applying patterns makes no operations, a pass makes none. -/
theorem Meets.size_le (hmeets : Meets patterns root ctx ctx')
    (hsize : ∀ pattern ∈ patterns, ∀ ctx o e, pattern.attempt { context := ctx } o = .ok (some e) →
      e.context.ops.size ≤ ctx.ops.size) : ctx'.ops.size ≤ ctx.ops.size := by
  obtain ⟨queue, pass, -, rfl, hturns⟩ := hmeets
  induction hturns with
  | refl => exact Nat.le_refl _
  | tail _ hturn ih =>
    obtain ⟨o, rest, -, hvisit⟩ := hturn
    obtain ⟨rfl, -⟩ | ⟨happlies, -⟩ := visit_cases hvisit
    · exact ih
    · obtain ⟨pattern, hpattern, e, hattempt, he⟩ := happlies.attempt
      rw [he]
      exact Nat.le_trans (hsize pattern hpattern _ _ e hattempt) ih

theorem brief_attempt_tag : Brief (tag.attempt { context := ctx } o) := by
  refine Brief.found.bind fun row => ?_
  split
  · exact .pure
  · exact .pure

/-- To give an operation an attribute makes none. -/
theorem size_of_attempt_tag {e : Editor} (hrun : tag.attempt { context := ctx } o = .ok (some e)) :
    e.context.ops.size ≤ ctx.ops.size := by
  obtain ⟨row, -, hrun⟩ := Outcome.bind_eq_ok.1 hrun
  split at hrun
  · cases hrun
  · obtain rfl := Option.some.inj (Outcome.pure_eq_ok.1 hrun)
    simp [Editor.withContext, Context.setAttribute, Context.modifyOp]

/-- Operations that are given an attribute if they lack it. -/
theorem ends_iff_tagged : ∃ root ctx, Context.empty.read "f" tagged = (.ok root, ctx) ∧
    Ends [tag] root ctx := by
  have hreads : Build.reads "f" tagged fun _ _ => true := Build.reads_ofList (by decide +kernel)
  obtain ⟨root, ctx, hread, -⟩ := Build.exists_of_reads hreads
  obtain ⟨hsound, hroot, -, -⟩ := Build.read_built hread
  refine ⟨root, ctx, hread, (ends_iff hsound hroot ?_).2 ⟨ctx.ops.size, fun ctx' hmeets => ?_⟩⟩
  · exact List.forall_mem_singleton.2 fun _ _ => brief_attempt_tag
  · exact hmeets.size_le (List.forall_mem_singleton.2 fun _ _ _ => size_of_attempt_tag)

end Greedy

end Offload
