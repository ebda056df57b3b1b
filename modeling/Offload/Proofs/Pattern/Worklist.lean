import Mathlib.Data.Nat.Find
import Offload.Proofs.Ir.Mutation
import Offload.Proofs.Pattern.Bounded

/-!
# The discipline of a pass

A pass is followed visit by visit: which operation is taken from the queue, what the
program is then, which patterns are tried, and what the one that applies makes of it
(`Visit`). Following changes nothing (`map_follow`). What holds of the visits of any pass
is `Disciplined`:

* no operation is changed twice, patterns are tried on nothing but what is nested in the
  root and not erased, and every change is counted;
* no operation is forgotten: what a change has touched, and what is above that up to the
  root, is taken from the queue once more after the change.

The queue, the set beside it and the list of what was changed stay in step from turn to
turn, while patterns erase and move what waits in the queue (`apart_turns`). To wake an
operation is to reach everything on the way up from it (`mem_queue_wakeAll`), for which
the number of operations is enough, even should the way go round.
-/

namespace Offload

/-- A change to a program is made by calls that change contexts. -/
def Pattern.Lawful (pattern : Pattern) : Prop :=
  ∀ ctx o e, pattern.attempt { context := ctx } o = .ok (some e) → ctx.Mutations e.context

/-- What there is to see when an operation is taken from the queue. -/
structure Visit where
  op : OpRef
  /-- The program at that time. -/
  context : Context
  /-- The patterns that are tried on the operation, in this order. -/
  tried : List Pattern
  /-- What the last one of them made of the program, if it applied. -/
  applied : Option Editor

namespace Greedy

variable {greedy : Greedy} {root o a : OpRef} {ctx ctx' : Context} {pass pass' : Pass}
  {visit : Visit} {visits : List Visit}

/-! ## Following a pass -/

/-- The first of the patterns in some places that applies to an operation, with those that were
    tried. -/
def tryAt (greedy : Greedy) (ctx : Context) (o : OpRef) :
    (places : List Nat) → Except Fault (List Pattern × Option Editor)
  | [] => return ([], none)
  | place :: rest => do
    let pattern ← found greedy.patterns[place]?
    match ← pattern.attempt { context := ctx } o with
    | some e => return ([pattern], some e)
    | none =>
      let (tried, applied) ← tryAt greedy ctx o rest
      return (pattern :: tried, applied)

/-- Look at an operation from the queue, and say what there was to see. -/
def watch (greedy : Greedy) (root : OpRef) (pass : Pass) (o : OpRef) :
    Except Fault (Pass × Visit) := do
  if pass.context.isErased o || o = root then return (pass, ⟨o, pass.context, [], none⟩)
  if !(← pass.context.isAncestor root o) then return (pass, ⟨o, pass.context, [], none⟩)
  let places := greedy.index.candidates (← pass.context.kind o)
  let (tried, applied) ← greedy.tryAt pass.context o places
  match applied with
  | none => return (pass, ⟨o, pass.context, tried, none⟩)
  | some e =>
    let woken ← (afterChange pass o e.context).wakeAll root e.touched
    return (woken, ⟨o, pass.context, tried, some e⟩)

/-- Look at the operations in the queue until it is empty, `n` at most, and list the
    visits. -/
def follow (greedy : Greedy) (root : OpRef) : (n : Nat) → Pass → Except Fault (Pass × List Visit)
  | n, pass =>
    match pass.queue with
    | [] => return (pass, [])
    | o :: queue =>
      match n with
      | 0 => throw .endless
      | n + 1 => do
        let (pass, visit) ← greedy.watch root (pass.taken o queue) o
        let (pass, visits) ← follow greedy root n pass
        return (pass, visit :: visits)

/-- One pass over what is nested in a root, with its visits. -/
def followPass (greedy : Greedy) (ctx : Context) (root : OpRef) :
    Except Fault (Context × Nat × List Visit) := do
  let queue ← ctx.nested root
  let (pass, visits) ← greedy.follow root greedy.budget (.start ctx queue)
  return (pass.context, pass.changes, visits)

theorem map_tryAt (places : List Nat) :
    Prod.snd <$> greedy.tryAt ctx o places = greedy.firstAt ctx o places := by
  induction places with
  | nil => rfl
  | cons place rest ih =>
    rw [tryAt, firstAt, ← ih, map_bind]
    refine Outcome.bind_congr fun pattern _ => ?_
    cases pattern.attempt { context := ctx } o with
    | error => rfl
    | ok answer =>
      cases answer with
      | some e => rfl
      | none => cases greedy.tryAt ctx o rest <;> rfl

theorem map_watch : Prod.fst <$> greedy.watch root pass o = greedy.visit root pass o := by
  rw [watch, Greedy.visit]
  split
  · rfl
  rw [map_bind]
  refine Outcome.bind_congr fun nested _ => ?_
  cases nested with
  | false => rfl
  | true =>
    simp only [Bool.not_true, Bool.false_eq_true, if_false, map_bind]
    refine Outcome.bind_congr fun kind _ => ?_
    rw [← map_tryAt, bind_map_left]
    refine Outcome.bind_congr fun answer _ => ?_
    obtain ⟨tried, applied⟩ := answer
    cases applied with
    | none => rfl
    | some e =>
      simp only [map_bind, map_pure, bind_pure]
      rfl

theorem follow_of_nil {n : Nat} (hqueue : pass.queue = []) :
    greedy.follow root n pass = .ok (pass, []) := by
  rw [follow.eq_def]
  simp only [hqueue]
  rfl

theorem follow_zero {queue : List OpRef} (hqueue : pass.queue = o :: queue) :
    greedy.follow root 0 pass = .error .endless := by
  rw [follow.eq_def]
  simp only [hqueue]
  rfl

theorem follow_succ {n : Nat} {queue : List OpRef} (hqueue : pass.queue = o :: queue) :
    greedy.follow root (n + 1) pass = (do
      let (pass, visit) ← greedy.watch root (pass.taken o queue) o
      let (pass, visits) ← greedy.follow root n pass
      return (pass, visit :: visits)) := by
  rw [follow.eq_def]
  simp only [hqueue]

theorem map_follow {n : Nat} :
    Prod.fst <$> greedy.follow root n pass = greedy.drain root n pass := by
  induction n generalizing pass with
  | zero =>
    cases hqueue : pass.queue with
    | nil =>
      rw [follow_of_nil hqueue, drain_of_nil hqueue]
      rfl
    | cons o queue =>
      rw [follow_zero hqueue, drain_zero hqueue]
      rfl
  | succ n ih =>
    cases hqueue : pass.queue with
    | nil =>
      rw [follow_of_nil hqueue, drain_of_nil hqueue]
      rfl
    | cons o queue =>
      rw [follow_succ hqueue, drain_succ hqueue, ← map_watch, bind_map_left, map_bind]
      refine Outcome.bind_congr fun answer _ => ?_
      rw [← ih]
      obtain ⟨pass₁, visit⟩ := answer
      cases hrest : greedy.follow root n pass₁ <;> simp only [hrest] <;> rfl

theorem map_followPass :
    (fun answer => (answer.1, answer.2.1)) <$> greedy.followPass ctx root =
      greedy.runPass ctx root := by
  rw [followPass, runPass, map_bind]
  refine Outcome.bind_congr fun queue _ => ?_
  rw [← map_follow, bind_map_left, map_bind]
  rfl

/-! ## The way up -/

/-- On the way up from an operation, and below the root. -/
def WayUp (ctx : Context) (root o a : OpRef) : Prop :=
  o ≠ root ∧ Relation.ReflTransGen (fun p q => ctx.above p = some q ∧ q ≠ root) o a

/-- The operation after so many steps on the way up from one, short of the root. -/
def climb (ctx : Context) (root : OpRef) : Nat → OpRef → Option OpRef
  | 0, o => if o = root then none else some o
  | n + 1, o => if o = root then none else (ctx.above o).bind (climb ctx root n)

theorem climb_add (i j : Nat) (o : OpRef) :
    climb ctx root (i + j) o = (climb ctx root i o).bind (climb ctx root j) := by
  induction i generalizing o with
  | zero =>
    rw [Nat.zero_add, climb]
    split
    · cases j <;> rw [climb, if_pos ‹_›] <;> rfl
    · rfl
  | succ i ih =>
    rw [Nat.succ_add, climb, climb]
    split
    · rfl
    · rw [Option.bind_assoc, show climb ctx root (i + j) = _ from funext ih]

theorem WayUp.exists_climb (h : WayUp ctx root o a) : ∃ n, climb ctx root n o = some a := by
  obtain ⟨hne, hway⟩ := h
  induction hway using Relation.ReflTransGen.head_induction_on with
  | refl => exact ⟨0, if_neg hne⟩
  | head hstep _ ih =>
    obtain ⟨n, hn⟩ := ih hstep.2
    exact ⟨n + 1, by rw [climb, if_neg hne, hstep.1, Option.bind_some, hn]⟩

/-- On the shortest way up no operation is met twice, so it is no longer than there are
    operations. -/
theorem exists_climb_le {n : Nat} (h : climb ctx root n o = some a) :
    ∃ k, k ≤ ctx.ops.size ∧ climb ctx root k o = some a := by
  obtain ⟨k, hk, hmin⟩ : ∃ k, climb ctx root k o = some a ∧
      ∀ i < k, climb ctx root i o ≠ some a := by
    have hex : ∃ k, climb ctx root k o = some a := ⟨n, h⟩
    exact ⟨Nat.find hex, Nat.find_spec hex, fun _ hi => Nat.find_min hex hi⟩
  refine ⟨k, ?_, hk⟩
  have hrest (i : Nat) (hi : i < k) :
      ∃ p, climb ctx root i o = some p ∧ climb ctx root (k - i) p = some a := by
    rw [← Nat.add_sub_cancel' hi.le, climb_add] at hk
    exact Option.bind_eq_some_iff.1 hk
  choose! p hp hrest using hrest
  have hnodup : ((List.range k).map p).Nodup := by
    refine List.Nodup.map_on (fun i hi j hj e => ?_) List.nodup_range
    rw [List.mem_range] at hi hj
    -- a way that comes to an operation twice can be cut short
    have hcut {i j : Nat} (hi : i < k) (hj : j < k) (e : p i = p j) : ¬i < j := fun hij => by
      refine hmin (i + (k - j)) (by omega) ?_
      rw [climb_add, hp i hi, e, Option.bind_some, hrest j hj]
    rcases Nat.lt_trichotomy i j with hij | hij | hij
    · exact absurd hij (hcut hi hj e)
    · exact hij
    · exact absurd hij (hcut hj hi e.symm)
  have hex : ∀ q ∈ (List.range k).map p, q.index < ctx.ops.size := by
    intro q hq
    obtain ⟨i, hi, rfl⟩ := List.mem_map.1 hq
    have hi := List.mem_range.1 hi
    obtain ⟨m, hm⟩ := Nat.exists_eq_add_of_lt (Nat.sub_pos_of_lt hi)
    have hclimb := hrest i hi
    rw [hm, Nat.zero_add, climb] at hclimb
    by_contra hn
    have hnone : ctx.above (p i) = none := by
      rw [Context.above, Context.blockOf, Context.readOp_of_not_hasOp hn]
      rfl
    rw [hnone] at hclimb
    split at hclimb <;> cases hclimb
  simpa using length_le_of_index hnodup hex

/-! ## Waking -/

/-- Everything on the way up from a woken operation is queued. -/
theorem mem_queue_of_climb {n k : Nat} (hs : pass.InStep) (hrun : pass.wake root n o = .ok pass')
    (hk : k < n) (hclimb : climb pass.context root k o = some a)
    (hlive : pass.context.isErased a = false) (hunchanged : a ∉ pass.changed) :
    a ∈ pass'.queue := by
  induction n generalizing pass o k with
  | zero => exact absurd hk (Nat.not_lt_zero k)
  | succ n ih =>
    have hne : o ≠ root := by
      rintro rfl
      cases k <;> simp [climb] at hclimb
    rw [Pass.wake, if_neg hne] at hrun
    obtain ⟨parent, hparent, hrun⟩ := Outcome.bind_eq_ok.1 hrun
    rw [context_enqueue] at hparent
    obtain ⟨ho, rfl⟩ := Context.parentOp_eq_ok hparent
    cases k with
    | zero =>
      rw [climb, if_neg hne, Option.some.injEq] at hclimb
      subst hclimb
      have hqueued := mem_queue_enqueue hs hlive hunchanged
      cases habove : pass.context.above o with
      | none =>
        rw [habove] at hrun
        exact Outcome.pure_eq_ok.1 hrun ▸ hqueued
      | some p =>
        rw [habove] at hrun
        exact (woken_wake hrun).kept hqueued
    | succ k =>
      rw [climb, if_neg hne] at hclimb
      obtain ⟨p, habove, hclimb⟩ := Option.bind_eq_some_iff.1 hclimb
      rw [habove] at hrun
      exact ih ((woken_enqueue ho).inStep hs) hrun (Nat.lt_of_succ_lt_succ hk) (by rwa [context_enqueue])
        (by rwa [context_enqueue]) (by rwa [changed_enqueue])

theorem mem_queue_wakeAll {os : List OpRef} (hs : pass.InStep)
    (hrun : pass.wakeAll root os = .ok pass') (ho : o ∈ os) (hway : WayUp pass.context root o a)
    (hlive : pass.context.isErased a = false) (hunchanged : a ∉ pass.changed) :
    a ∈ pass'.queue := by
  induction os generalizing pass with
  | nil => cases ho
  | cons p os ih =>
    obtain ⟨pass₁, hwake, hrest⟩ := Outcome.bind_eq_ok.1 hrun
    rcases List.mem_cons.1 ho with rfl | ho
    · obtain ⟨n, hn⟩ := hway.exists_climb
      obtain ⟨k, hk, hclimb⟩ := exists_climb_le hn
      exact (woken_wakeAll hrest).kept
        (mem_queue_of_climb hs hwake (Nat.lt_succ_of_le hk) hclimb hlive hunchanged)
    · have heq := wake_eq hwake
      exact ih ((woken_wake hwake).inStep hs) hrest ho (by rwa [heq]) (by rwa [heq])
        (by rwa [heq])

/-- The root is not woken. -/
theorem root_not_mem_wake {n : Nat} (hrun : pass.wake root n o = .ok pass')
    (h : root ∉ pass.queue) : root ∉ pass'.queue := by
  induction n generalizing pass o with
  | zero => exact Outcome.pure_eq_ok.1 hrun ▸ h
  | succ n ih =>
    rw [Pass.wake] at hrun
    split at hrun
    · exact Outcome.pure_eq_ok.1 hrun ▸ h
    · rename_i hne
      obtain ⟨parent, -, hrun⟩ := Outcome.bind_eq_ok.1 hrun
      have hnext : root ∉ (pass.enqueue o).queue := by
        rw [Pass.enqueue]
        split
        · simpa [h] using Ne.symm hne
        · exact h
      cases parent with
      | none => exact Outcome.pure_eq_ok.1 hrun ▸ hnext
      | some p => exact ih hrun hnext

theorem root_not_mem_wakeAll {os : List OpRef} (hrun : pass.wakeAll root os = .ok pass')
    (h : root ∉ pass.queue) : root ∉ pass'.queue := by
  induction os generalizing pass with
  | nil => exact Outcome.pure_eq_ok.1 hrun ▸ h
  | cons o os ih =>
    obtain ⟨pass₁, hwake, hrest⟩ := Outcome.bind_eq_ok.1 hrun
    exact ih hrest (root_not_mem_wake hwake h)

/-! ## Visits -/

/-- What a visit says of itself: patterns are tried on nothing but what is nested in the
    root, and the one that applies is among them. -/
structure Faithful (greedy : Greedy) (root : OpRef) (visit : Visit) : Prop where
  patterns : visit.tried ⊆ greedy.patterns
  ne_root : visit.tried ≠ [] → visit.op ≠ root
  live : visit.tried ≠ [] → visit.context.isErased visit.op = false
  nested : visit.tried ≠ [] → visit.context.Within visit.op root
  applied : ∀ e, visit.applied = some e → ∃ pattern ∈ visit.tried,
    pattern.attempt { context := visit.context } visit.op = .ok (some e)

theorem tryAt_eq_ok {places : List Nat} {tried : List Pattern} {applied : Option Editor}
    (hrun : greedy.tryAt ctx o places = .ok (tried, applied)) : tried ⊆ greedy.patterns ∧
      ∀ e, applied = some e → ∃ pattern ∈ tried,
        pattern.attempt { context := ctx } o = .ok (some e) := by
  induction places generalizing tried with
  | nil =>
    obtain ⟨rfl, rfl⟩ := Prod.mk.inj (Outcome.pure_eq_ok.1 hrun)
    exact ⟨List.nil_subset _, nofun⟩
  | cons place rest ih =>
    obtain ⟨pattern, hpattern, hrun⟩ := Outcome.bind_eq_ok.1 hrun
    have hmem : pattern ∈ greedy.patterns := List.mem_of_getElem? (found_eq_ok_iff.1 hpattern)
    obtain ⟨answer, hanswer, hrun⟩ := Outcome.bind_eq_ok.1 hrun
    cases answer with
    | some e =>
      obtain ⟨rfl, rfl⟩ := Prod.mk.inj (Outcome.pure_eq_ok.1 hrun)
      refine ⟨List.cons_subset.2 ⟨hmem, List.nil_subset _⟩,
        fun e' he => ⟨pattern, List.mem_singleton_self _, ?_⟩⟩
      rw [hanswer, he]
    | none =>
      obtain ⟨⟨tried', applied'⟩, hrest, hrun⟩ := Outcome.bind_eq_ok.1 hrun
      obtain ⟨rfl, rfl⟩ := Prod.mk.inj (Outcome.pure_eq_ok.1 hrun)
      obtain ⟨hsub, happlied⟩ := ih hrest
      refine ⟨List.cons_subset.2 ⟨hmem, hsub⟩, fun e he => ?_⟩
      obtain ⟨p, hp, hattempt⟩ := happlied e he
      exact ⟨p, List.mem_cons_of_mem pattern hp, hattempt⟩

/-- A visit leaves a pass as it is, or changes the program and wakes what that touched. -/
theorem watch_eq_ok (hrun : greedy.watch root pass o = .ok (pass', visit)) :
    visit.op = o ∧ Faithful greedy root visit ∧
      (visit.applied = none ∧ pass' = pass ∨ ∃ e, visit.applied = some e ∧
        (∃ pattern ∈ greedy.patterns,
          pattern.attempt { context := pass.context } o = .ok (some e)) ∧
        (afterChange pass o e.context).wakeAll root e.touched = .ok pass') := by
  rw [watch] at hrun
  split at hrun
  · obtain ⟨rfl, rfl⟩ := Prod.mk.inj (Outcome.pure_eq_ok.1 hrun)
    exact ⟨rfl, ⟨by simp, by simp, by simp, by simp, nofun⟩, .inl ⟨rfl, rfl⟩⟩
  rename_i hskip
  rw [Bool.or_eq_true, decide_eq_true_eq, not_or, Bool.not_eq_true] at hskip
  obtain ⟨nested, hnested, hrun⟩ := Outcome.bind_eq_ok.1 hrun
  cases nested with
  | false =>
    obtain ⟨rfl, rfl⟩ := Prod.mk.inj (Outcome.pure_eq_ok.1 hrun)
    exact ⟨rfl, ⟨by simp, by simp, by simp, by simp, nofun⟩, .inl ⟨rfl, rfl⟩⟩
  | true =>
    obtain ⟨kind, -, hrun⟩ := Outcome.bind_eq_ok.1 hrun
    obtain ⟨⟨tried, applied⟩, htried, hrun⟩ := Outcome.bind_eq_ok.1 hrun
    obtain ⟨hsub, happlied⟩ := tryAt_eq_ok htried
    have hwithin := Context.within_of_isAncestorWithin hnested
    cases applied with
    | none =>
      obtain ⟨rfl, rfl⟩ := Prod.mk.inj (Outcome.pure_eq_ok.1 hrun)
      exact ⟨rfl, ⟨hsub, fun _ => hskip.2, fun _ => hskip.1, fun _ => hwithin, happlied⟩,
        .inl ⟨rfl, rfl⟩⟩
    | some e =>
      obtain ⟨woken, hwake, hrun⟩ := Outcome.bind_eq_ok.1 hrun
      obtain ⟨rfl, rfl⟩ := Prod.mk.inj (Outcome.pure_eq_ok.1 hrun)
      obtain ⟨pattern, hpattern, hattempt⟩ := happlied e rfl
      exact ⟨rfl, ⟨hsub, fun _ => hskip.2, fun _ => hskip.1, fun _ => hwithin, happlied⟩,
        .inr ⟨e, rfl, ⟨pattern, hsub hpattern, hattempt⟩, hwake⟩⟩

/-- The operations that were changed in some visits, in this order. -/
def changedBy (visits : List Visit) : List OpRef :=
  (visits.filter (·.applied.isSome)).map Visit.op

theorem changedBy_cons (visit : Visit) (visits : List Visit) :
    changedBy (visit :: visits) = changedBy [visit] ++ changedBy visits := by
  rw [changedBy, changedBy, changedBy, ← List.map_append, ← List.filter_append,
    List.singleton_append]

/-- What a visit does to a pass. -/
structure Watched (greedy : Greedy) (root : OpRef) (pass : Pass) (visit : Visit)
    (pass' : Pass) : Prop where
  faithful : Faithful greedy root visit
  changed : pass'.changed = changedBy [visit] ++ pass.changed
  changes : pass'.changes = pass.changes + (changedBy [visit]).length
  kept : pass.queue ⊆ pass'.queue
  root_not_mem : root ∉ pass.queue → root ∉ pass'.queue
  keepsErased : pass.context.KeepsErased pass'.context
  woken : ∀ e, visit.applied = some e → ∀ t ∈ e.touched, ∀ a, WayUp e.context root t a →
    pass'.context.isErased a = false → a ∉ pass'.changed → a ∈ pass'.queue

theorem watch_watched (hlawful : ∀ pattern ∈ greedy.patterns, pattern.Lawful) (hs : pass.InStep)
    (hrun : greedy.watch root pass o = .ok (pass', visit)) :
    Watched greedy root pass visit pass' := by
  obtain ⟨rfl, hfaithful, ⟨hnone, rfl⟩ | ⟨e, hsome, ⟨pattern, hpattern, hattempt⟩, hwake⟩⟩ :=
    watch_eq_ok hrun
  · have hchanged : changedBy [visit] = [] := by simp [changedBy, hnone]
    refine ⟨hfaithful, by rw [hchanged]; rfl, by rw [hchanged]; rfl, List.Subset.refl _, id,
      fun _ => id, fun e he => ?_⟩
    rw [hnone] at he
    cases he
  · have hchanged : changedBy [visit] = [visit.op] := by simp [changedBy, hsome]
    have hwoken := woken_wakeAll hwake
    have heq := hwoken.eq
    refine ⟨hfaithful, by rw [hchanged, heq]; rfl, by rw [hchanged, heq]; rfl, hwoken.kept,
      fun hroot => root_not_mem_wakeAll hwake hroot, ?_,
      fun e' he t ht a hway hlive hunchanged => ?_⟩
    · rw [heq]
      exact (hlawful pattern hpattern _ _ e hattempt).keepsErased
    · obtain rfl := Option.some.inj (hsome.symm.trans he)
      rw [heq] at hlive hunchanged
      have hs₁ : (afterChange pass visit.op e.context).InStep := hs
      exact mem_queue_wakeAll hs₁ hwake ht hway hlive hunchanged

/-! ## Runs of visits -/

/-- What holds of the visits between two states of a pass. -/
structure Followed (greedy : Greedy) (root : OpRef) (pass : Pass) (visits : List Visit)
    (pass' : Pass) : Prop where
  faithful : ∀ visit ∈ visits, Faithful greedy root visit
  changed : pass'.changed = (changedBy visits).reverse ++ pass.changed
  changes : pass'.changes = pass.changes + (changedBy visits).length
  apart : pass'.Apart
  keepsErased : pass.context.KeepsErased pass'.context
  taken : ∀ o ∈ pass.queue, ∃ visit ∈ visits, visit.op = o
  ne_root : root ∉ pass.queue → ∀ visit ∈ visits, visit.op ≠ root
  woken : ∀ before visit after, visits = before ++ visit :: after → ∀ e, visit.applied = some e →
    ∀ t ∈ e.touched, ∀ a, WayUp e.context root t a → pass'.context.isErased a = false →
      a ∉ pass'.changed → ∃ later ∈ after, later.op = a

theorem Followed.nil (hapart : pass.Apart) (hqueue : pass.queue = []) :
    Followed greedy root pass [] pass := by
  refine ⟨by simp, rfl, rfl, hapart, fun _ => id, by simp [hqueue], fun _ _ => by simp,
    fun before _ _ hsplit => ?_⟩
  cases before <;> cases hsplit

/-- One more visit before others. -/
theorem Followed.cons {queue : List OpRef} {pass₁ : Pass} (hqueue : pass.queue = visit.op :: queue)
    (h₁ : Watched greedy root (pass.taken visit.op queue) visit pass₁)
    (h : Followed greedy root pass₁ visits pass') :
    Followed greedy root pass (visit :: visits) pass' where
  faithful := List.forall_mem_cons.2 ⟨h₁.faithful, h.faithful⟩
  changed := by
    have hone : (changedBy [visit]).reverse = changedBy [visit] := by
      rw [changedBy, List.filter_cons]
      split <;> rfl
    rw [h.changed, h₁.changed, changedBy_cons visit visits, List.reverse_append, hone,
      List.append_assoc]
    rfl
  changes := by
    rw [h.changes, h₁.changes, changedBy_cons visit visits, List.length_append, Nat.add_assoc]
    rfl
  apart := h.apart
  keepsErased := h₁.keepsErased.trans h.keepsErased
  taken p hp := by
    rw [hqueue] at hp
    rcases List.mem_cons.1 hp with rfl | hp
    · exact ⟨visit, List.mem_cons_self, rfl⟩
    · obtain ⟨later, hlater, hop⟩ := h.taken p (h₁.kept hp)
      exact ⟨later, List.mem_cons_of_mem visit hlater, hop⟩
  ne_root hroot := by
    rw [hqueue, List.mem_cons, not_or] at hroot
    exact List.forall_mem_cons.2 ⟨fun e => hroot.1 e.symm, h.ne_root (h₁.root_not_mem hroot.2)⟩
  woken before v after hsplit e he t ht a hway hlive hunchanged := by
    cases before with
    | cons _ before =>
      exact h.woken before v after (List.cons.inj hsplit).2 e he t ht a hway hlive hunchanged
    | nil =>
      -- what is queued by this visit is taken by one of the others
      obtain ⟨rfl, rfl⟩ := List.cons.inj hsplit
      refine h.taken a (h₁.woken e he t ht a hway (Bool.eq_false_iff.2 fun herased => ?_)
        fun hm => hunchanged ?_)
      · rw [h.keepsErased a herased] at hlive
        cases hlive
      · rw [h.changed]
        exact List.mem_append_right _ hm

theorem follow_followed (hlawful : ∀ pattern ∈ greedy.patterns, pattern.Lawful) {n : Nat}
    (h : pass.Apart) (hrun : greedy.follow root n pass = .ok (pass', visits)) :
    Followed greedy root pass visits pass' := by
  induction n generalizing pass visits with
  | zero =>
    cases hqueue : pass.queue with
    | nil =>
      rw [follow_of_nil hqueue] at hrun
      obtain ⟨rfl, rfl⟩ := Prod.mk.inj (Except.ok.inj hrun)
      exact .nil h hqueue
    | cons o queue =>
      rw [follow_zero hqueue] at hrun
      cases hrun
  | succ n ih =>
    cases hqueue : pass.queue with
    | nil =>
      rw [follow_of_nil hqueue] at hrun
      obtain ⟨rfl, rfl⟩ := Prod.mk.inj (Except.ok.inj hrun)
      exact .nil h hqueue
    | cons o queue =>
      rw [follow_succ hqueue] at hrun
      obtain ⟨⟨pass₁, visit⟩, hwatch, hrun⟩ := Outcome.bind_eq_ok.1 hrun
      obtain ⟨⟨pass₂, visits⟩, hrest, hrun⟩ := Outcome.bind_eq_ok.1 hrun
      obtain ⟨rfl, rfl⟩ := Prod.mk.inj (Outcome.pure_eq_ok.1 hrun)
      obtain rfl := (watch_eq_ok hwatch).1
      have htaken := (apart_taken h hqueue).1
      have hvisit : greedy.visit root (pass.taken visit.op queue) visit.op = .ok pass₁ := by
        rw [← map_watch, hwatch]
        rfl
      exact .cons hqueue (watch_watched hlawful htaken.inStep hwatch)
        (ih (apart_turn h ⟨_, queue, hqueue, hvisit⟩) hrest)

/-! ## Passes -/

/-- The visits of a pass that ends in a program, after a number of changes. -/
structure Disciplined (greedy : Greedy) (root : OpRef) (visits : List Visit) (ctx' : Context)
    (changes : Nat) : Prop where
  /-- No operation is changed twice. -/
  once : (changedBy visits).Nodup
  /-- Patterns are tried on nothing but what is nested in the root and not erased. -/
  faithful : ∀ visit ∈ visits, Faithful greedy root visit
  /-- The root is never taken from the queue. -/
  ne_root : ∀ visit ∈ visits, visit.op ≠ root
  /-- All changes are counted. -/
  changes_eq : changes = visits.countP (·.applied.isSome)
  /-- What a change has touched, and what is above that below the root, is taken from the
      queue after it, unless it is erased at the end or changed in this pass. -/
  woken : ∀ before visit after, visits = before ++ visit :: after → ∀ e, visit.applied = some e →
    ∀ t ∈ e.touched, ∀ a, WayUp e.context root t a → ctx'.isErased a = false →
      (∀ other ∈ visits, other.op = a → other.applied = none) → ∃ later ∈ after, later.op = a

theorem followPass_disciplined (hlawful : ∀ pattern ∈ greedy.patterns, pattern.Lawful)
    (h : ctx.Sound) {changes : Nat} (hrun : greedy.followPass ctx root = .ok (ctx', changes, visits)) :
    Disciplined greedy root visits ctx' changes := by
  simp only [followPass, Outcome.bind_eq_ok, Outcome.pure_eq_ok, Prod.exists,
    Prod.mk.injEq] at hrun
  obtain ⟨queue, hqueue, pass, visits, hfollow, rfl, rfl, rfl⟩ := hrun
  have hfollowed := follow_followed hlawful (apart_start h hqueue) hfollow
  have hchanged : pass.changed = (changedBy visits).reverse :=
    hfollowed.changed.trans (List.append_nil _)
  have hchanges : pass.changes = (changedBy visits).length :=
    hfollowed.changes.trans (Nat.zero_add _)
  refine ⟨?_, hfollowed.faithful, hfollowed.ne_root ?_, ?_,
    fun before visit after hsplit e he t ht a hway hlive hunchanged => ?_⟩
  · rw [← List.nodup_reverse, ← hchanged]
    exact hfollowed.apart.changed
  · obtain ⟨tree, htree, hqueue⟩ := Outcome.bind_eq_ok.1 hqueue
    obtain rfl := Outcome.pure_eq_ok.1 hqueue
    have hnodup := h.grounded.nodup_subtree h.coherent htree
    obtain ⟨-, below, -, rfl⟩ := Context.subtreeWithin_succ_eq_ok htree
    exact (List.nodup_cons.1 hnodup).1
  · rw [hchanges, changedBy, List.length_map, List.countP_eq_length_filter]
  · refine hfollowed.woken before visit after hsplit e he t ht a hway hlive fun hm => ?_
    rw [hchanged, List.mem_reverse, changedBy, List.mem_map] at hm
    obtain ⟨other, hother, rfl⟩ := hm
    obtain ⟨hother, happlied⟩ := List.mem_filter.1 hother
    rw [hunchanged other hother rfl] at happlied
    cases happlied

/-- Every pass over a sound context that ends is disciplined, if the patterns change
    contexts by calls alone; and in every state that it comes to, the queue, the set beside
    it and what was changed are in step. The root has no part in it: it is never taken. -/
theorem runPass_disciplined (hlawful : ∀ pattern ∈ greedy.patterns, pattern.Lawful) (h : ctx.Sound)
    {changes : Nat} (hrun : greedy.runPass ctx root = .ok (ctx', changes)) :
    (∃ visits, greedy.followPass ctx root = .ok (ctx', changes, visits) ∧
      Disciplined greedy root visits ctx' changes) ∧
    ∀ queue pass, ctx.nested root = .ok queue → greedy.Turns root (.start ctx queue) pass →
      pass.Apart := by
  refine ⟨?_, fun queue pass hqueue hturns => apart_turns (apart_start h hqueue) hturns⟩
  rw [← map_followPass] at hrun
  obtain ⟨⟨_, _, visits⟩, hpass, heq⟩ := Outcome.map_eq_ok.1 hrun
  obtain ⟨rfl, rfl⟩ := Prod.mk.inj heq
  exact ⟨visits, hpass, followPass_disciplined hlawful h hpass⟩

/-- To give an operation an attribute is to write to its row. -/
theorem lawful_tag : tag.Lawful := by
  intro ctx o e hattempt
  obtain ⟨row, -, hattempt⟩ := Outcome.bind_eq_ok.1 hattempt
  split at hattempt
  · cases hattempt
  · obtain rfl := Option.some.inj (Outcome.pure_eq_ok.1 hattempt)
    rw [Editor.context_touch]
    exact .single (.write o _ (fun _ => rfl) fun _ => rfl)

/-- Two operations, one in the other, of which the outer one has the attribute. -/
def outerTagged : String :=
  "func.func @f \x7btype = func.fn(core.nil)\x7d \x7b
  test.op \x7btag = unit\x7d \x7b
    test.op
    test.end
  \x7d
  func.return
\x7d"

set_option maxRecDepth 100000 in
/-- When the inner operation is changed, the outer one has been looked at before, and is
    looked at again. -/
theorem runPass_disciplined_outerTagged : ∃ root ctx ctx' visits,
    Context.empty.read "f" outerTagged = (.ok root, ctx) ∧
      ({ patterns := [tag] } : Greedy).followPass ctx root = .ok (ctx', 1, visits) ∧
      visits.map Visit.op = [⟨2⟩, ⟨0⟩, ⟨1⟩, ⟨3⟩, ⟨2⟩] ∧
      Disciplined { patterns := [tag] } root visits ctx' 1 ∧
      ∀ queue pass, ctx.nested root = .ok queue →
        ({ patterns := [tag] } : Greedy).Turns root (.start ctx queue) pass → pass.Apart := by
  have hreads : Build.reads "f" outerTagged fun root ctx =>
      decide ((({ patterns := [tag] } : Greedy).followPass ctx root).toOption.map
        (fun (_, changes, visits) => (changes, visits.map Visit.op)) =
          some (1, [⟨2⟩, ⟨0⟩, ⟨1⟩, ⟨3⟩, ⟨2⟩])) := Build.reads_ofList (by decide +kernel)
  obtain ⟨root, ctx, hread, htest⟩ := Build.exists_of_reads hreads
  obtain ⟨⟨ctx', changes, visits⟩, hpass, htest⟩ :=
    Option.map_eq_some_iff.1 (of_decide_eq_true htest)
  obtain ⟨rfl, hops⟩ := Prod.mk.inj htest
  have hpass := Outcome.eq_ok_of_toOption hpass
  have hrun : ({ patterns := [tag] } : Greedy).runPass ctx root = .ok (ctx', 1) := by
    rw [← map_followPass, hpass]
    rfl
  obtain ⟨⟨visits', hpass', hdisciplined⟩, hapart⟩ := runPass_disciplined
    (by simpa using lawful_tag) (Build.read_built hread).1 hrun
  obtain rfl : visits = visits' := by
    rw [hpass] at hpass'
    exact (Prod.mk.inj (Prod.mk.inj (Except.ok.inj hpass')).2).2
  exact ⟨root, ctx, ctx', visits, hread, hpass, hops, hdisciplined, hapart⟩

end Greedy

end Offload
