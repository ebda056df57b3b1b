import Offload.Proofs.Parallel.Progress
import Offload.Proofs.Pattern.Termination

/-!
# The parallel patterns come to an end

However the parallel patterns are applied to a valid program, and wherever, they can be applied
only so many times (`not_rewrites_forever`), for every application lowers the weight of the
program. The optimization does not fault, and from some cap on the number of passes on it
always gets to where no pattern applies (`run_terminates`).
-/

namespace Offload

open Context

namespace Parallel

variable {root : OpRef} {ctx ctx' : Context} {path text : String} {findings : Findings}

/-- A pattern is applied to something nested in the root. -/
def Rewrites (root : OpRef) (ctx ctx' : Context) : Prop :=
  ∃ pattern ∈ patterns, ∃ o, ctx.Within o root ∧ o ≠ root ∧ ∃ e e' : Editor,
    e.context = ctx ∧ pattern.attempt e o = .ok (some e') ∧ e'.context = ctx'

theorem Rewrites.tight (hrewrites : Rewrites root ctx ctx') (h : ctx.Tight root) :
    ctx'.Tight root := by
  obtain ⟨pattern, hpattern, o, ho, hne, e, e', rfl, hattempt, rfl⟩ := hrewrites
  exact Steps.tight (steps_of_attempt hpattern h.toStable ho hne hattempt).to_reflTransGen h

theorem Rewrites.weight_lt (hrewrites : Rewrites root ctx ctx') (h : ctx.Tight root) :
    ctx'.weight root < ctx.weight root := by
  obtain ⟨pattern, hpattern, o, ho, hne, e, e', rfl, hattempt, rfl⟩ := hrewrites
  exact weight_lt_of_transGen (steps_of_attempt hpattern h.toStable ho hne hattempt) h

/-- No tight program can be rewritten for ever. -/
theorem not_rewrites_forever (h : ctx.Tight root) :
    ¬∃ f : ℕ → Context, f 0 = ctx ∧ ∀ n, Rewrites root (f n) (f (n + 1)) := by
  rintro ⟨f, rfl, hf⟩
  have htight (n : ℕ) : (f n).Tight root := by
    induction n with
    | zero => exact h
    | succ n ih => exact (hf n).tight ih
  obtain ⟨n, hn⟩ := WellFounded.not_rel_apply_succ (r := (· < ·)) fun n => (f n).weight root
  exact hn ((hf n).weight_lt (htight n))

/-- Applied to tight programs, the parallel patterns lower the weight. -/
theorem descent (root : OpRef) :
    Greedy.Descent patterns root (Context.Tight · root) (Context.weight · root) where
  sound h := h.sound
  hasRoot h := h.hasRoot
  exists_attempt {ctx o pattern} h ho hne hpattern := by
    obtain ⟨answer, hanswer, hrec⟩ := exists_attempt (e := { context := ctx }) h ho hne hpattern
    exact ⟨answer, hanswer, fun e he => hrec e he fun o ho => by cases ho⟩
  applied {ctx o pattern e} h ho hne hpattern hattempt := by
    have hrewrites : Rewrites root ctx e.context :=
      ⟨pattern, hpattern, o, ho, hne, { context := ctx }, e, rfl, hattempt, rfl⟩
    have hsteps := steps_of_attempt (e := { context := ctx }) hpattern h.toStable ho hne hattempt
    exact ⟨hrewrites.tight h, hrewrites.weight_lt h,
      fun p hp => (Steps.evolves hsteps.to_reflTransGen).hasOp hp⟩

/-- The optimization of a tight program ends if its budget is sufficient, from some cap on the
    number of passes on at a fixpoint. -/
theorem run_ends (h : ctx.Tight root) : ∃ budget cap, ∀ maxPasses, ∃ ctx' result,
    (∀ b, budget ≤ b →
      { patterns, maxPasses, budget := b : Greedy }.run ctx root = .ok (ctx', result)) ∧
    (cap ≤ maxPasses → result.reachedFixpoint) := by
  obtain ⟨budget, cap, hruns⟩ := (descent root).exists_runPasses h
  refine ⟨budget, cap, fun maxPasses => ?_⟩
  obtain ⟨ctx', result, hrun, hfixpoint⟩ := hruns maxPasses 0 0
  exact ⟨ctx', result, fun b hb => hrun _ rfl hb, hfixpoint⟩

/-- What is read and valid is tight, as there is nothing but the program. -/
theorem tight_of_read (hread : Context.empty.read path text = (.ok root, ctx))
    (hfindings : ctx.findings root = .ok findings) (hvalid : findings.isEmpty) :
    ctx.Tight root := by
  have h := stable_of_read hread hfindings hvalid
  have hvalid := (h.sound.findings_isEmpty_iff h.hasRoot h.live).1 ⟨findings, hfindings, hvalid⟩
  exact hvalid.tight h fun o ho => Build.read_within hread ho

/-- The parallel patterns cannot be applied to a valid program for ever, in whatever order and
    wherever. The optimization of such a program does not fault, if its budget is sufficient,
    whatever the cap on the number of passes; and from some cap on it reaches a fixpoint. -/
theorem run_terminates (hread : Context.empty.read path text = (.ok root, ctx))
    (hfindings : ctx.findings root = .ok findings) (hvalid : findings.isEmpty) :
    (¬∃ f : ℕ → Context, f 0 = ctx ∧ ∀ n, Rewrites root (f n) (f (n + 1))) ∧
      ∃ budget cap, ∀ maxPasses, ∃ ctx' result, (∀ b, budget ≤ b →
          { patterns, maxPasses, budget := b : Greedy }.run ctx root = .ok (ctx', result)) ∧
        (cap ≤ maxPasses → result.reachedFixpoint) := by
  have h := tight_of_read hread hfindings hvalid
  exact ⟨not_rewrites_forever h, run_ends h⟩

set_option maxRecDepth 100000 in
/-- Two regions are rewritten into one, and that is all that can be done. -/
theorem run_terminates_regionInLoop : ∃ root ctx ctx', ∃ result : GreedyResult,
    Context.empty.read "f" regionInLoop = (.ok root, ctx) ∧
      { patterns, maxPasses := 47 : Greedy }.run ctx root = .ok (ctx', result) ∧
        result.changes = 2 ∧
      (¬∃ f : ℕ → Context, f 0 = ctx ∧ ∀ n, Rewrites root (f n) (f (n + 1))) ∧
      ∃ budget cap, ∀ maxPasses, ∃ ctx' result, (∀ b, budget ≤ b →
          { patterns, maxPasses, budget := b : Greedy }.run ctx root = .ok (ctx', result)) ∧
        (cap ≤ maxPasses → result.reachedFixpoint) := by
  have hends : endsWith "f" regionInLoop 47 (fun _ _ _ result => decide (result.changes = 2)) :=
    endsWith_ofList (by decide +kernel)
  obtain ⟨root, ctx, findings, ctx', result, hread, hfindings, hvalid, hrun, htest⟩ :=
    exists_of_endsWith hends
  exact ⟨root, ctx, ctx', result, hread, hrun, of_decide_eq_true htest,
    run_terminates hread hfindings hvalid⟩

end Parallel

end Offload
