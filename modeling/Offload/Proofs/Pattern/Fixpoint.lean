import Offload.Proofs.Ir.Reachable
import Offload.Proofs.Kind
import Offload.Proofs.Pattern.Editor
import Offload.Proofs.Pattern.Greedy
import Offload.Proofs.Source.Build
import Offload.Source.Read

/-!
# Fixpoints of patterns

A run that reports a fixpoint has come to rest: its last pass has looked at all that
is nested in the root, no pattern applies to any of it, and another run makes one
pass, which changes nothing (`Greedy.run_settles`). The patterns are arbitrary. One
that declines has changed nothing, which its type says; of one that applies nothing
is asked.

So a pattern may break the links of a context. An operation counts as nested then if
looking down from the root and looking up to it agree, and it is not erased
(`Context.Nests`). Where the tables of a context agree and nothing in the root has
been erased (`Context.Intact`), these are all the operations in the root, and
patterns that keep this condition lead to such a context again.
-/

namespace Offload

namespace Context

variable {ctx : Context} {root o a : OpRef}

/-- The tables agree, and nothing in an operation has been erased. -/
structure Intact (ctx : Context) (root : OpRef) : Prop where
  coherent : ctx.Coherent
  live : ∀ o, ctx.Within o root → ctx.isErased o = false

/-- An operation is nested in a root, other than the root itself: it is met on the
    way down, it leads up to the root, and it has not been erased. -/
structure Nests (ctx : Context) (root o : OpRef) : Prop where
  ne_root : o ≠ root
  live : ctx.isErased o = false
  below : ∃ queue, ctx.nested root = .ok queue ∧ o ∈ queue
  inside : ctx.isAncestor root o = .ok true

theorem isAncestorWithin_mono {n m : Nat} (hnm : n ≤ m)
    (h : ctx.isAncestorWithin a n o = .ok true) : ctx.isAncestorWithin a m o = .ok true := by
  induction n generalizing m o with
  | zero => simp [isAncestorWithin] at h
  | succ n ih =>
    obtain ⟨m, rfl⟩ := Nat.exists_eq_add_of_le' (Nat.zero_lt_of_lt hnm)
    rw [isAncestorWithin] at h ⊢
    split at h
    · rename_i ho
      rw [if_pos ho]
      exact h
    · rename_i ho
      obtain ⟨above, habove, h⟩ := Outcome.bind_eq_ok.1 h
      rw [if_neg ho, habove, Outcome.ok_bind]
      cases above with
      | none => exact h
      | some p => exact ih (Nat.le_of_succ_le_succ hnm) h

/-- What is met in a number of levels below an operation is led up from in as many
    steps. -/
theorem Coherent.isAncestorWithin_of_mem (h : ctx.Coherent) {n m : Nat} {p : OpRef}
    {l : List OpRef} (hrun : ctx.subtreeWithin (n + 1) o = .ok l) (hp : p ∈ l)
    (ho : ctx.isAncestorWithin a m o = .ok true) :
    ctx.isAncestorWithin a (m + n) p = .ok true := by
  induction n generalizing o m l with
  | zero =>
    obtain ⟨-, ls, hls, rfl⟩ := subtreeWithin_succ_eq_ok hrun
    rcases List.mem_cons.1 hp with rfl | hp
    · exact ho
    · obtain ⟨l, hl, hp⟩ := List.mem_flatten.1 hp
      obtain ⟨c, -, hnone⟩ := Outcome.exists_of_mem_right hls hl
      simp [subtreeWithin] at hnone
  | succ n ih =>
    obtain ⟨-, ls, hls, rfl⟩ := subtreeWithin_succ_eq_ok hrun
    rcases List.mem_cons.1 hp with rfl | hp
    · exact isAncestorWithin_mono (Nat.le_add_right m (n + 1)) ho
    · obtain ⟨l, hl, hp⟩ := List.mem_flatten.1 hp
      obtain ⟨c, hc, hbelow⟩ := Outcome.exists_of_mem_right hls hl
      have habove := h.mem_childrenOf.1 hc
      have hup : ctx.isAncestorWithin a (m + 1) c = .ok true := by
        rw [isAncestorWithin]
        split
        · rfl
        · rw [h.parentOp_ok (h.hasOp_of_above habove).1, habove, Outcome.ok_bind]
          exact ho
      have := ih hbelow hp hup
      rwa [Nat.add_right_comm, Nat.add_assoc] at this

/-- The list of what is nested in an operation has what is within it, but not the
    operation itself unless a cycle leads back to it. -/
theorem Coherent.mem_nested (h : ctx.Coherent) {queue : List OpRef}
    (hqueue : ctx.nested root = .ok queue) (hne : o ≠ root) :
    o ∈ queue ↔ ctx.Within o root := by
  obtain ⟨tree, htree, hqueue⟩ := Outcome.bind_eq_ok.1 hqueue
  obtain rfl := Outcome.pure_eq_ok.1 hqueue
  rw [← h.mem_subtree_iff htree]
  obtain ⟨-, ls, -, rfl⟩ := subtreeWithin_succ_eq_ok htree
  rw [List.tail_cons, List.mem_cons, or_iff_right hne]

theorem Intact.nests_iff (h : ctx.Intact root) {queue : List OpRef}
    (hqueue : ctx.nested root = .ok queue) :
    ctx.Nests root o ↔ ctx.Within o root ∧ o ≠ root := by
  constructor
  · rintro ⟨hne, -, -, hinside⟩
    exact ⟨within_of_isAncestorWithin hinside, hne⟩
  · rintro ⟨hw, hne⟩
    have hmem := (h.coherent.mem_nested hqueue hne).2 hw
    obtain ⟨tree, htree, hqueue'⟩ := Outcome.bind_eq_ok.1 hqueue
    obtain rfl := Outcome.pure_eq_ok.1 hqueue'
    have hroot : ctx.isAncestorWithin root 1 root = .ok true := by
      rw [isAncestorWithin, if_pos rfl]
      rfl
    have hinside := h.coherent.isAncestorWithin_of_mem htree (List.mem_of_mem_tail hmem) hroot
    rw [Nat.add_comm] at hinside
    exact ⟨hne, h.live o hw, ⟨_, hqueue, hmem⟩, hinside⟩

end Context

namespace Greedy

variable {greedy : Greedy} {root : OpRef} {ctx ctx' : Context}

/-- What every application keeps is kept by any number of them. -/
theorem Reaches.invariant {inv : Context → Prop}
    (hkeeps : ∀ ctx₁ ctx₂ o, inv ctx₁ → greedy.Applies root ctx₁ o ctx₂ → inv ctx₂)
    (hreaches : greedy.Reaches root ctx ctx') (h : inv ctx) : inv ctx' := by
  induction hreaches with
  | refl => exact h
  | tail _ hstep ih =>
    obtain ⟨o, happlies⟩ := hstep
    exact hkeeps _ _ o ih happlies

/-- The pass that reports a fixpoint starts where it ends. -/
theorem runPass_of_fixpoint {n passes changes : Nat} {result : GreedyResult}
    (hrun : greedy.runPasses root n ctx passes changes = .ok (ctx', result))
    (hfixpoint : result.reachedFixpoint) : greedy.runPass ctx' root = .ok (ctx', 0) := by
  induction n generalizing ctx passes changes with
  | zero =>
    simp only [runPasses, Outcome.pure_eq_ok, Prod.mk.injEq] at hrun
    obtain ⟨-, rfl⟩ := hrun
    cases hfixpoint
  | succ n ih =>
    simp only [runPasses, Outcome.bind_eq_ok, Prod.exists] at hrun
    obtain ⟨ctx₁, new, hpass, hrun⟩ := hrun
    split at hrun
    · rename_i hnew
      subst hnew
      simp only [Outcome.pure_eq_ok, Prod.mk.injEq] at hrun
      obtain ⟨rfl, -⟩ := hrun
      obtain ⟨rfl, -⟩ := runPass_rests hpass
      exact hpass
    · exact ih hrun

/-- A run that is allowed a pass, of which the first changes nothing. -/
theorem runPasses_of_quiet {n : Nat} (hpass : greedy.runPass ctx root = .ok (ctx, 0)) :
    greedy.runPasses root (n + 1) ctx 0 0 = .ok (ctx, ⟨1, 0, true⟩) := by
  rw [runPasses, hpass]
  rfl

/-- A run that reports a fixpoint leaves nothing to do: no pattern applies to what is
    nested in the root, and a second run, with any cap but zero, makes one pass without
    a change. If the patterns keep contexts intact, what is nested is all that is in
    the root. -/
theorem run_settles (h : ctx.Intact root) {result : GreedyResult}
    (hrun : greedy.run ctx root = .ok (ctx', result)) (hfixpoint : result.reachedFixpoint) :
    (∀ o, ctx'.Nests root o → ∀ pattern ∈ greedy.patterns,
      pattern.kind?.all (· = ctx'.kindOf o) → pattern.attempt { context := ctx' } o = .ok none) ∧
    ((∀ ctx₁ ctx₂ o, ctx₁.Intact root → greedy.Applies root ctx₁ o ctx₂ → ctx₂.Intact root) →
      ctx'.Intact root ∧ ∀ o, ctx'.Nests root o ↔ ctx'.Within o root ∧ o ≠ root) ∧
    ∀ cap, 0 < cap → { greedy with maxPasses := cap }.run ctx' root = .ok (ctx', ⟨1, 0, true⟩) := by
  obtain ⟨queue, hqueue, hrests⟩ := run_rests hrun hfixpoint
  refine ⟨fun o ho pattern hpattern hkind => ?_, fun hkeeps => ?_, fun cap hcap => ?_⟩
  · obtain ⟨queue', hqueue', hmem⟩ := ho.below
    obtain rfl := Except.ok.inj (hqueue.symm.trans hqueue')
    obtain ⟨kind, hkind', hnone⟩ := hrests o hmem ho.ne_root ho.live ho.inside
    obtain ⟨-, rfl⟩ := Context.kind_eq_ok hkind'
    exact firstApplied_eq_none hnone hpattern hkind
  · have hintact : ctx'.Intact root := (run_reaches hrun).invariant hkeeps h
    exact ⟨hintact, fun o => hintact.nests_iff hqueue⟩
  · obtain ⟨n, rfl⟩ := Nat.exists_eq_add_of_le' hcap
    -- the cap is no part of a pass
    have hpatterns : ({ greedy with maxPasses := n + 1 } : Greedy).patterns = greedy.patterns := rfl
    exact runPasses_of_quiet
      ((runPass_congr hpatterns rfl ctx' root).trans (runPass_of_fixpoint hrun hfixpoint))

/-- Give an operation an attribute that it lacks. -/
def tag : Pattern where
  kind? := some ⟨"test", "op"⟩
  attempt e o := do
    if (← e.context.op o).attributes.contains "tag" then return none
    return some ((e.withContext (e.context.setAttribute o "tag" (.atom .unit))).touch o)

/-- An attribute has no part in the links between operations. -/
theorem intact_of_applies_tag {ctx₁ ctx₂ : Context} {o : OpRef} (h : ctx₁.Intact root)
    (happlies : Applies { patterns := [tag] } root ctx₁ o ctx₂) : ctx₂.Intact root := by
  obtain ⟨pattern, hpattern, e, hattempt, rfl⟩ := happlies.attempt
  obtain rfl := List.mem_singleton.1 hpattern
  obtain ⟨row, -, hattempt⟩ := Outcome.bind_eq_ok.1 hattempt
  split at hattempt
  · simp at hattempt
  · obtain rfl := Option.some.inj (Outcome.pure_eq_ok.1 hattempt)
    rw [Editor.context_touch]
    refine ⟨h.coherent.setAttribute o _ _, ?_⟩
    intro p hp
    simp only [Context.Within, Editor.withContext, Context.above_setAttribute] at hp
    rw [Context.isErased_eq_readOp, Editor.withContext,
      Context.readOp_setAttribute _ _ fun _ _ => rfl, ← Context.isErased_eq_readOp]
    exact h.live p hp

/-- Two operations, one in the other, of which one has the attribute. -/
def tagged : String :=
  "func.func @f \x7btype = func.fn(core.nil)\x7d \x7b
  test.op \x7b
    test.op \x7btag = unit\x7d
    test.end
  \x7d
  func.return
\x7d"

set_option maxRecDepth 100000 in
/-- The first pass gives the outer operation the attribute; the second finds nothing. -/
theorem run_settles_tagged : ∃ root ctx ctx',
    Context.empty.read "f" tagged = (.ok root, ctx) ∧ ctx.Intact root ∧
      { patterns := [tag] : Greedy }.run ctx root = .ok (ctx', ⟨2, 1, true⟩) ∧
      (∀ o, ctx'.Within o root → o ≠ root → ctx'.kindOf o = ⟨"test", "op"⟩ →
        tag.attempt { context := ctx' } o = .ok none) ∧
      { patterns := [tag], maxPasses := 3 : Greedy }.run ctx' root = .ok (ctx', ⟨1, 0, true⟩) := by
  have hreads : Build.reads "f" tagged fun root ctx =>
      decide (({ patterns := [tag] : Greedy }.run ctx root).toOption.map Prod.snd =
        some ⟨2, 1, true⟩) := Build.reads_ofList (by decide +kernel)
  obtain ⟨root, ctx, hread, htest⟩ := Build.exists_of_reads hreads
  obtain ⟨⟨ctx', -⟩, hended, rfl⟩ := Option.map_eq_some_iff.1 (of_decide_eq_true htest)
  have hrun := Outcome.eq_ok_of_toOption hended
  obtain ⟨hsound, -, -, hlive⟩ := Build.read_built hread
  have hintact : ctx.Intact root := ⟨hsound.coherent, fun o _ => hlive o⟩
  obtain ⟨hrest, hall, hagain⟩ := run_settles hintact hrun rfl
  obtain ⟨-, hnests⟩ := hall fun _ _ _ => intact_of_applies_tag
  refine ⟨root, ctx, ctx', hread, hintact, hrun, fun o ho hne hkind => ?_, hagain 3 (by decide)⟩
  exact hrest o ((hnests o).2 ⟨ho, hne⟩) tag List.mem_cons_self (by simp [tag, hkind])

end Greedy

end Offload
