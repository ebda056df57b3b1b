import Mathlib.Data.List.Basic
import Mathlib.Logic.Relation
import Offload.Pattern.Greedy
import Offload.Proofs.Outcome

/-!
# Runs of patterns

The index of a list of patterns leads to those that look at operations of a kind, all of
them and in the order of the list (`PatternIndex.candidates_of`), so to try them is to try
the patterns of the list itself one after the other (`Greedy.firstAt_candidates`).

Whatever the order in which operations are taken from the queue, and however many
passes are made, the program changes by applications of patterns alone, each at an
operation that is nested in the root and has not been erased (`Greedy.Applies`).
So a property that every application keeps is kept by a run (`Greedy.run_reaches`).
-/

namespace Offload

/-! ## Patterns by kind -/

namespace PatternIndex

variable {index : PatternIndex} {kind : OpKind}

theorem under_add (pattern : Pattern) (place : Nat) : (index.add pattern place).under kind =
    index.under kind ++ if pattern.kind? = some kind then [place] else [] := by
  rw [add]
  cases hkind : pattern.kind? with
  | none => exact (List.append_nil _).symm
  | some k =>
    by_cases hk : k = kind
    · subst hk
      simp [under]
    · have hne : kind ≠ k := Ne.symm hk
      simp [under, List.lookup_cons, beq_false_of_ne hne, hk]

theorem generic_add (pattern : Pattern) (place : Nat) : (index.add pattern place).generic =
    index.generic ++ if pattern.kind? = none then [place] else [] := by
  rw [add]
  cases pattern.kind? <;> simp

/-- The places at which patterns of a list have a property. -/
def placesOf (entries : List (Pattern × Nat)) (p : Pattern → Bool) : List Nat :=
  (entries.filter fun e => p e.1).map Prod.snd

theorem placesOf_cons (e : Pattern × Nat) (entries : List (Pattern × Nat)) (p : Pattern → Bool) :
    placesOf (e :: entries) p = (if p e.1 then [e.2] else []) ++ placesOf entries p := by
  rw [placesOf, List.filter_cons]
  split <;> rfl

theorem foldl_add (entries : List (Pattern × Nat)) (index : PatternIndex) (kind : OpKind) :
    (entries.foldl (fun index e => index.add e.1 e.2) index).under kind =
        index.under kind ++ placesOf entries (·.kind? = some kind) ∧
      (entries.foldl (fun index e => index.add e.1 e.2) index).generic =
        index.generic ++ placesOf entries (·.kind? = none) := by
  induction entries generalizing index with
  | nil => exact ⟨(List.append_nil _).symm, (List.append_nil _).symm⟩
  | cons e entries ih =>
    obtain ⟨hunder, hgeneric⟩ := ih (index.add e.1 e.2)
    rw [List.foldl_cons, hunder, hgeneric, under_add, generic_add, placesOf_cons, placesOf_cons]
    simp

/-- In the index of a list, the places to try are those of all patterns that look at operations
    of the kind, in the order of the list. -/
theorem candidates_of (patterns : List Pattern) (kind : OpKind) :
    (of patterns).candidates kind = placesOf patterns.zipIdx (·.kind?.all (· = kind)) := by
  have hunder : (of patterns).under kind = placesOf patterns.zipIdx (·.kind? = some kind) :=
    (foldl_add patterns.zipIdx empty kind).1
  have hgeneric : (of patterns).generic = placesOf patterns.zipIdx (·.kind? = none) :=
    (foldl_add patterns.zipIdx empty kind).2
  have hsorted (p : Pattern → Bool) :
      (placesOf patterns.zipIdx p).Pairwise fun i j => decide (i ≤ j) := by
    have hsub : (placesOf patterns.zipIdx p).Sublist (List.range' 0 patterns.length) := by
      rw [← List.zipIdx_map_snd]
      exact List.filter_sublist.map _
    exact (List.pairwise_le_range'.sublist hsub).imp fun h => decide_eq_true h
  have hperm : (placesOf patterns.zipIdx (·.kind? = some kind) ++
      placesOf patterns.zipIdx (·.kind? = none)).Perm
        (placesOf patterns.zipIdx (·.kind?.all (· = kind))) := by
    rw [placesOf, placesOf, placesOf, ← List.map_append]
    refine .map _ ?_
    have h := List.filter_append_perm (fun e : Pattern × Nat => e.1.kind? = some kind)
      (patterns.zipIdx.filter fun e => e.1.kind?.all (· = kind))
    rw [List.filter_filter, List.filter_filter] at h
    refine .trans (.of_eq (congrArg₂ _ ?_ ?_)) h
    · refine List.filter_congr fun e _ => ?_
      cases e.1.kind? <;> simp
    · refine List.filter_congr fun e _ => ?_
      cases e.1.kind? <;> simp
  have hsort {l : List Nat} {p : Pattern → Bool} (h : l.Perm (placesOf patterns.zipIdx p)) :
      sortBy (fun i j => decide (i ≤ j)) l = placesOf patterns.zipIdx p := by
    refine sortBy_of_perm (fun i j => ?_) (fun i j k hij hjk => ?_) (fun i j _ _ hij hji => ?_)
      (hsorted p) h
    · simpa using Nat.le_total i j
    · exact decide_eq_true (Nat.le_trans (of_decide_eq_true hij) (of_decide_eq_true hjk))
    · exact Nat.le_antisymm (of_decide_eq_true hij) (of_decide_eq_true hji)
  rw [candidates, hunder, hgeneric]
  split
  · rename_i hnone
    rw [List.isEmpty_iff.1 hnone, List.append_nil] at hperm
    exact (hsort (.refl _)).symm.trans (hsort hperm)
  · exact hsort hperm

end PatternIndex

namespace Greedy

variable {greedy : Greedy} {root o : OpRef} {ctx ctx' : Context}

/-- The first of some patterns that applies to an operation, applied. -/
def firstApplied (ctx : Context) (o : OpRef) (kind : OpKind) :
    List Pattern → Except Fault (Option Editor)
  | [] => return none
  | pattern :: rest => do
    if pattern.kind?.all (· = kind) then
      match ← pattern.attempt { context := ctx } o with
      | some e => return some e
      | none => firstApplied ctx o kind rest
    else firstApplied ctx o kind rest

theorem firstAt_placesOf {n : Nat} {rest : List Pattern} (kind : OpKind)
    (hrest : greedy.patterns.drop n = rest) :
    greedy.firstAt ctx o (PatternIndex.placesOf (rest.zipIdx n) (·.kind?.all (· = kind))) =
      firstApplied ctx o kind rest := by
  induction rest generalizing n with
  | nil => rfl
  | cons pattern rest ih =>
    have hplace : greedy.patterns[n]? = some pattern := by
      have h := congrArg (·[0]?) hrest
      simpa [List.getElem?_drop] using h
    have hnext : greedy.patterns.drop (n + 1) = rest := by
      rw [← List.drop_drop, hrest, List.drop_one, List.tail_cons]
    rw [List.zipIdx_cons, PatternIndex.placesOf_cons, firstApplied, ← ih hnext]
    split
    · rw [List.singleton_append, firstAt, hplace, found_some]
      rfl
    · rfl

/-- The index leads to the first of all patterns that look at operations of a kind and apply. -/
theorem firstAt_candidates (kind : OpKind) :
    greedy.firstAt ctx o (greedy.index.candidates kind) =
      firstApplied ctx o kind greedy.patterns := by
  rw [index, PatternIndex.candidates_of]
  exact firstAt_placesOf kind (List.drop_zero)

/-! ## Applications -/

/-- A pattern is applied to an operation nested in the root. -/
structure Applies (greedy : Greedy) (root : OpRef) (ctx : Context) (o : OpRef)
    (ctx' : Context) : Prop where
  ne_root : o ≠ root
  live : ctx.isErased o = false
  nested : ctx.isAncestor root o = .ok true
  attempt : ∃ pattern ∈ greedy.patterns, ∃ e,
    pattern.attempt { context := ctx } o = .ok (some e) ∧ ctx' = e.context

/-- A number of patterns are applied one after the other. -/
def Reaches (greedy : Greedy) (root : OpRef) : Context → Context → Prop :=
  Relation.ReflTransGen fun ctx ctx' => ∃ o, greedy.Applies root ctx o ctx'

namespace Reaches

variable {ctx₁ ctx₂ : Context}

theorem refl (ctx : Context) : greedy.Reaches root ctx ctx := Relation.ReflTransGen.refl

theorem trans (h₁ : greedy.Reaches root ctx ctx₁) (h₂ : greedy.Reaches root ctx₁ ctx₂) :
    greedy.Reaches root ctx ctx₂ := Relation.ReflTransGen.trans h₁ h₂

end Reaches

theorem Applies.reaches (h : greedy.Applies root ctx o ctx') : greedy.Reaches root ctx ctx' :=
  Relation.ReflTransGen.single ⟨o, h⟩

/-! ## The driver -/

theorem firstApplied_eq_some {patterns : List Pattern} {kind : OpKind} {e : Editor}
    (hrun : firstApplied ctx o kind patterns = .ok (some e)) :
    ∃ pattern ∈ patterns, pattern.attempt { context := ctx } o = .ok (some e) := by
  induction patterns with
  | nil => simp [firstApplied] at hrun
  | cons pattern rest ih =>
    rw [firstApplied] at hrun
    split at hrun
    · obtain ⟨result, hresult, hrun⟩ := Outcome.bind_eq_ok.1 hrun
      cases result with
      | some e' =>
        obtain rfl := Option.some.inj (Outcome.pure_eq_ok.1 hrun)
        exact ⟨pattern, List.mem_cons_self, hresult⟩
      | none =>
        obtain ⟨p, hp, happlied⟩ := ih hrun
        exact ⟨p, List.mem_cons_of_mem pattern hp, happlied⟩
    · obtain ⟨p, hp, happlied⟩ := ih hrun
      exact ⟨p, List.mem_cons_of_mem pattern hp, happlied⟩

/-- If no pattern was applied, each that looks at operations of the kind has declined. -/
theorem firstApplied_eq_none {patterns : List Pattern} {kind : OpKind}
    (hrun : firstApplied ctx o kind patterns = .ok none) {pattern : Pattern}
    (hpattern : pattern ∈ patterns) (hkind : pattern.kind?.all (· = kind)) :
    pattern.attempt { context := ctx } o = .ok none := by
  induction patterns with
  | nil => cases hpattern
  | cons first rest ih =>
    rw [firstApplied] at hrun
    split at hrun
    · obtain ⟨result, hresult, hrun⟩ := Outcome.bind_eq_ok.1 hrun
      cases result with
      | some e => simp at hrun
      | none =>
        rcases List.mem_cons.1 hpattern with rfl | hpattern
        · exact hresult
        · exact ih hrun hpattern
    · rename_i hfirst
      rcases List.mem_cons.1 hpattern with rfl | hpattern
      · exact absurd hkind hfirst
      · exact ih hrun hpattern

@[simp] theorem context_taken (pass : Pass) (o : OpRef) (queue : List OpRef) :
    (pass.taken o queue).context = pass.context := rfl

/-- To queue an operation changes the queue alone, and the set beside it. -/
theorem enqueue_eq (pass : Pass) (o : OpRef) : pass.enqueue o =
    { pass with queue := (pass.enqueue o).queue, queued := (pass.enqueue o).queued } := by
  rw [Pass.enqueue]
  split <;> rfl

theorem context_enqueue (pass : Pass) (o : OpRef) : (pass.enqueue o).context = pass.context := by
  rw [enqueue_eq]

theorem changed_enqueue (pass : Pass) (o : OpRef) : (pass.enqueue o).changed = pass.changed := by
  rw [enqueue_eq]

/-- Waking operations changes the queue alone, and the set beside it. -/
theorem wake_eq {n : Nat} {pass pass' : Pass} (hrun : pass.wake root n o = .ok pass') :
    pass' = { pass with queue := pass'.queue, queued := pass'.queued } := by
  induction n generalizing pass o with
  | zero => rw [← Outcome.pure_eq_ok.1 hrun]
  | succ n ih =>
    rw [Pass.wake] at hrun
    split at hrun
    · rw [← Outcome.pure_eq_ok.1 hrun]
    · obtain ⟨parent, -, hrun⟩ := Outcome.bind_eq_ok.1 hrun
      cases parent with
      | some p =>
        have hrest := ih hrun
        rw [enqueue_eq] at hrest
        exact hrest
      | none =>
        rw [← Outcome.pure_eq_ok.1 hrun]
        exact enqueue_eq pass o

theorem wakeAll_eq {os : List OpRef} {pass pass' : Pass}
    (hrun : pass.wakeAll root os = .ok pass') :
    pass' = { pass with queue := pass'.queue, queued := pass'.queued } := by
  induction os generalizing pass with
  | nil => rw [← Outcome.pure_eq_ok.1 hrun]
  | cons o os ih =>
    obtain ⟨pass₁, hwake, hrun⟩ := Outcome.bind_eq_ok.1 hrun
    have hrest := ih hrun
    rw [wake_eq hwake] at hrest
    exact hrest

/-- To look at an operation is to try the patterns one after the other. -/
theorem visit_eq (root : OpRef) (pass : Pass) (o : OpRef) : greedy.visit root pass o = (do
    if pass.context.isErased o || o = root then return pass
    if !(← pass.context.isAncestor root o) then return pass
    match ← firstApplied pass.context o (← pass.context.kind o) greedy.patterns with
    | none => return pass
    | some e =>
      let pass := { pass with
        context := e.context
        changed := o :: pass.changed
        changes := pass.changes + 1 }
      pass.wakeAll root e.touched) := by
  simp only [← firstAt_candidates]
  rfl

/-- An operation that a pass leaves alone: there is nothing to look at, or no pattern
    applies to it. -/
def Rests (greedy : Greedy) (root : OpRef) (ctx : Context) (o : OpRef) : Prop :=
  o ≠ root → ctx.isErased o = false → ctx.isAncestor root o = .ok true →
    ∃ kind, ctx.kind o = .ok kind ∧ firstApplied ctx o kind greedy.patterns = .ok none

/-- A visit leaves everything as it is, or counts as a change. -/
theorem visit_cases {pass pass' : Pass} (hrun : greedy.visit root pass o = .ok pass') :
    pass' = pass ∧ greedy.Rests root pass.context o ∨
      greedy.Applies root pass.context o pass'.context ∧ pass'.changes = pass.changes + 1 := by
  rw [visit_eq] at hrun
  split at hrun
  · rename_i hskip
    obtain rfl := Outcome.pure_eq_ok.1 hrun
    refine .inl ⟨rfl, fun hne hlive => ?_⟩
    simp [hne, hlive] at hskip
  · rename_i hskip
    rw [Bool.or_eq_true, decide_eq_true_eq, not_or, Bool.not_eq_true] at hskip
    obtain ⟨nested, hnested, hrun⟩ := Outcome.bind_eq_ok.1 hrun
    cases nested with
    | false =>
      obtain rfl := Outcome.pure_eq_ok.1 hrun
      refine .inl ⟨rfl, fun _ _ htrue => ?_⟩
      rw [hnested] at htrue
      cases htrue
    | true =>
      obtain ⟨kind, hkind, hrun⟩ := Outcome.bind_eq_ok.1 hrun
      obtain ⟨applied, happlied, hrun⟩ := Outcome.bind_eq_ok.1 hrun
      cases applied with
      | none =>
        obtain rfl := Outcome.pure_eq_ok.1 hrun
        exact .inl ⟨rfl, fun _ _ _ => ⟨kind, hkind, happlied⟩⟩
      | some e =>
        obtain ⟨pattern, hpattern, hattempt⟩ := firstApplied_eq_some happlied
        rw [wakeAll_eq hrun]
        exact .inr ⟨⟨hskip.2, hskip.1, hnested, pattern, hpattern, e, hattempt, rfl⟩, rfl⟩

/-- A visit applies a pattern, or none. -/
theorem visit_reaches {pass pass' : Pass} (hrun : greedy.visit root pass o = .ok pass') :
    greedy.Reaches root pass.context pass'.context := by
  rcases visit_cases hrun with ⟨rfl, -⟩ | ⟨happlies, -⟩
  · exact .refl _
  · exact happlies.reaches

theorem drain_of_nil {n : Nat} {pass : Pass} (hqueue : pass.queue = []) :
    greedy.drain root n pass = .ok pass := by
  rw [drain.eq_def]
  simp only [hqueue]
  rfl

theorem drain_succ {n : Nat} {pass : Pass} {queue : List OpRef}
    (hqueue : pass.queue = o :: queue) : greedy.drain root (n + 1) pass =
      (greedy.visit root (pass.taken o queue) o >>= greedy.drain root n) := by
  rw [drain.eq_def]
  simp only [hqueue]

theorem drain_zero {pass : Pass} {queue : List OpRef} (hqueue : pass.queue = o :: queue) :
    greedy.drain root 0 pass = .error .endless := by
  rw [drain.eq_def]
  simp only [hqueue]
  rfl

/-- Only the patterns matter for how a queue is emptied. -/
theorem drain_congr {greedy greedy' : Greedy} (h : greedy.patterns = greedy'.patterns) (n : Nat)
    (pass : Pass) : greedy.drain root n pass = greedy'.drain root n pass := by
  induction n generalizing pass with
  | zero =>
    cases hqueue : pass.queue with
    | nil => rw [drain_of_nil hqueue, drain_of_nil hqueue]
    | cons o queue => rw [drain_zero hqueue, drain_zero hqueue]
  | succ n ih =>
    cases hqueue : pass.queue with
    | nil => rw [drain_of_nil hqueue, drain_of_nil hqueue]
    | cons o queue => rw [drain_succ hqueue, drain_succ hqueue, visit_eq, visit_eq, h, funext ih]

/-- The cap on the number of passes plays no part in a pass. -/
theorem runPass_congr {greedy greedy' : Greedy} (h : greedy.patterns = greedy'.patterns)
    (hbudget : greedy.budget = greedy'.budget) (ctx : Context) (root : OpRef) :
    greedy.runPass ctx root = greedy'.runPass ctx root := by
  rw [runPass, runPass, hbudget]
  simp only [drain_congr h]

theorem drain_reaches {n : Nat} {pass pass' : Pass}
    (hrun : greedy.drain root n pass = .ok pass') :
    greedy.Reaches root pass.context pass'.context := by
  induction n generalizing pass with
  | zero =>
    cases hqueue : pass.queue with
    | nil =>
      rw [drain_of_nil hqueue] at hrun
      exact Except.ok.inj hrun ▸ .refl _
    | cons o queue =>
      rw [drain_zero hqueue] at hrun
      cases hrun
  | succ n ih =>
    cases hqueue : pass.queue with
    | nil =>
      rw [drain_of_nil hqueue] at hrun
      exact Except.ok.inj hrun ▸ .refl _
    | cons o queue =>
      rw [drain_succ hqueue] at hrun
      obtain ⟨pass₁, hvisit, hrun⟩ := Outcome.bind_eq_ok.1 hrun
      exact (visit_reaches hvisit).trans (ih hrun)

theorem runPass_reaches {changes : Nat} (hrun : greedy.runPass ctx root = .ok (ctx', changes)) :
    greedy.Reaches root ctx ctx' := by
  simp only [runPass, Outcome.bind_eq_ok, Outcome.pure_eq_ok, Prod.mk.injEq] at hrun
  obtain ⟨queue, -, pass, hdrain, rfl, -⟩ := hrun
  exact drain_reaches hdrain

theorem runPasses_reaches {n passes changes : Nat} {result : GreedyResult}
    (hrun : greedy.runPasses root n ctx passes changes = .ok (ctx', result)) :
    greedy.Reaches root ctx ctx' := by
  induction n generalizing ctx passes changes with
  | zero =>
    simp only [runPasses, Outcome.pure_eq_ok, Prod.mk.injEq] at hrun
    exact hrun.1 ▸ .refl _
  | succ n ih =>
    simp only [runPasses, Outcome.bind_eq_ok, Prod.exists] at hrun
    obtain ⟨ctx₁, new, hpass, hrun⟩ := hrun
    refine (runPass_reaches hpass).trans ?_
    split at hrun
    · simp only [Outcome.pure_eq_ok, Prod.mk.injEq] at hrun
      exact hrun.1 ▸ .refl _
    · exact ih hrun

/-- A run ends where a number of applications lead. -/
theorem run_reaches {result : GreedyResult} (hrun : greedy.run ctx root = .ok (ctx', result)) :
    greedy.Reaches root ctx ctx' := runPasses_reaches hrun

/-! ## The last pass -/

/-- A pass without changes has looked at everything in its queue. -/
theorem drain_rests {n : Nat} {pass pass' : Pass} (hrun : greedy.drain root n pass = .ok pass') :
    pass.changes ≤ pass'.changes ∧ (pass'.changes = pass.changes →
      pass'.context = pass.context ∧ ∀ o ∈ pass.queue, greedy.Rests root pass.context o) := by
  induction n generalizing pass with
  | zero =>
    cases hqueue : pass.queue with
    | nil =>
      rw [drain_of_nil hqueue] at hrun
      obtain rfl := Except.ok.inj hrun
      exact ⟨Nat.le_refl _, fun _ => ⟨rfl, by simp⟩⟩
    | cons o queue =>
      rw [drain_zero hqueue] at hrun
      cases hrun
  | succ n ih =>
    cases hqueue : pass.queue with
    | nil =>
      rw [drain_of_nil hqueue] at hrun
      obtain rfl := Except.ok.inj hrun
      exact ⟨Nat.le_refl _, fun _ => ⟨rfl, by simp⟩⟩
    | cons o queue =>
      rw [drain_succ hqueue] at hrun
      obtain ⟨pass₁, hvisit, hrun⟩ := Outcome.bind_eq_ok.1 hrun
      obtain ⟨hle, hquiet⟩ := ih hrun
      rcases visit_cases hvisit with ⟨rfl, hrests⟩ | ⟨-, hchanges⟩
      · refine ⟨hle, fun he => ?_⟩
        obtain ⟨hctx, hall⟩ := hquiet he
        exact ⟨hctx, List.forall_mem_cons.2 ⟨hrests, hall⟩⟩
      · -- a change is never taken back
        change pass₁.changes = pass.changes + 1 at hchanges
        exact ⟨by omega, fun he => by omega⟩

theorem runPass_rests (hrun : greedy.runPass ctx root = .ok (ctx', 0)) :
    ctx' = ctx ∧ ∃ queue, ctx.nested root = .ok queue ∧ ∀ o ∈ queue, greedy.Rests root ctx o := by
  simp only [runPass, Outcome.bind_eq_ok, Outcome.pure_eq_ok, Prod.mk.injEq] at hrun
  obtain ⟨queue, hqueue, pass, hdrain, rfl, hchanges⟩ := hrun
  obtain ⟨hctx, hall⟩ := (drain_rests hdrain).2 hchanges
  exact ⟨hctx, queue, hqueue, hall⟩

/-- At a fixpoint no pattern applies to anything nested in the root. -/
theorem runPasses_rests {n passes changes : Nat} {result : GreedyResult}
    (hrun : greedy.runPasses root n ctx passes changes = .ok (ctx', result))
    (hfixpoint : result.reachedFixpoint) :
    ∃ queue, ctx'.nested root = .ok queue ∧ ∀ o ∈ queue, greedy.Rests root ctx' o := by
  induction n generalizing ctx passes changes with
  | zero =>
    simp only [runPasses, Outcome.pure_eq_ok, Prod.mk.injEq] at hrun
    obtain ⟨-, rfl⟩ := hrun
    cases hfixpoint
  | succ n ih =>
    simp only [runPasses, Outcome.bind_eq_ok, Prod.exists] at hrun
    obtain ⟨ctx₁, new, hpass, hrun⟩ := hrun
    split at hrun
    · rename_i hnew
      subst hnew
      simp only [Outcome.pure_eq_ok, Prod.mk.injEq] at hrun
      obtain ⟨rfl, -⟩ := hrun
      obtain ⟨rfl, hrests⟩ := runPass_rests hpass
      exact hrests
    · exact ih hrun

theorem run_rests {result : GreedyResult} (hrun : greedy.run ctx root = .ok (ctx', result))
    (hfixpoint : result.reachedFixpoint) :
    ∃ queue, ctx'.nested root = .ok queue ∧ ∀ o ∈ queue, greedy.Rests root ctx' o :=
  runPasses_rests hrun hfixpoint

end Greedy

end Offload
