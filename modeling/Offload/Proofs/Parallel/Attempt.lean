import Offload.Proofs.Parallel.Termination
import Offload.Proofs.Parts

/-!
# Attempts in place

A pattern changes the context and the record of changes in place, and says at the end whether it
applied. That it leaves everything alone when it does not is part of the form of `Pattern.attempt`,
which gives a new editor only if the pattern applies. The patterns that swap a region with what is
around it decide before they change anything. Merging decides after it has moved what it can into
the region (`mergeInPlace`); nothing was moved if it does not apply
(`mergeInPlace_eq`), so there is nothing to undo.
-/

namespace Offload

open Context

namespace Editor

variable {e e' : Editor} {o anchor : OpRef}

theorem hasChanges_touch : (e.touch o).hasChanges := by
  have hmem : o ∈ (e.touch o).touched := by
    rw [touch]
    split
    · assumption
    · simp
  rw [hasChanges, Bool.or_eq_true]
  left
  rw [Bool.not_eq_true', List.isEmpty_eq_false_iff]
  exact List.ne_nil_of_mem hmem

theorem hasChanges_of_eraseOp (hrun : e.eraseOp o = .ok e') : e'.hasChanges := by
  rw [eraseOp] at hrun
  simp only [Outcome.bind_eq_ok, Outcome.pure_eq_ok] at hrun
  obtain ⟨parent, -, ctx, -, ctx', -, rfl⟩ := hrun
  simp [hasChanges]

theorem hasChanges_of_moveOpBefore (hrun : e.moveOpBefore o anchor = .ok e') : e'.hasChanges := by
  obtain ⟨ctx, -, hrun⟩ := Outcome.bind_eq_ok.1 hrun
  obtain rfl := Outcome.pure_eq_ok.1 hrun
  exact hasChanges_touch

end Editor

namespace Parallel

variable {root o previous : OpRef} {ctx : Context} {e e' : Editor}

theorem hasChanges_of_absorb (hrun : absorb e o previous = .ok e') : e'.hasChanges := by
  rw [absorb] at hrun
  obtain ⟨body, -, hrun⟩ := Outcome.bind_eq_ok.1 hrun
  obtain ⟨⟨e₁, copy⟩, -, hrun⟩ := Outcome.bind_eq_ok.1 hrun
  obtain ⟨-, e₂, -, hrun⟩ := Editor.replaceOpWithValues_eq_ok.1 hrun
  exact Editor.hasChanges_of_eraseOp hrun

theorem hasChanges_of_fuse (hrun : fuse e o previous = .ok e') : e'.hasChanges := by
  simp only [fuse, Outcome.bind_eq_ok] at hrun
  obtain ⟨_, -, _, -, _, -, _, -, _, -, _, -, _, -, herase⟩ := hrun
  exact Editor.hasChanges_of_eraseOp herase

theorem hasChanges_of_swap {outer : OpRef} {b : BlockRef} {withBarrier : Bool}
    (hrun : swap e o outer b withBarrier = .ok e') : e'.hasChanges := by
  rw [swap] at hrun
  obtain ⟨e₁, hmove, hrun⟩ := Outcome.bind_eq_ok.1 hrun
  obtain ⟨body, -, hrun⟩ := Outcome.bind_eq_ok.1 hrun
  obtain ⟨last, -, hrun⟩ := Outcome.bind_eq_ok.1 hrun
  cases last with
  | none =>
    obtain rfl := Outcome.pure_eq_ok.1 hrun
    exact Editor.hasChanges_of_moveOpBefore hmove
  | some last =>
    simp only [Outcome.bind_eq_ok] at hrun
    obtain ⟨block, -, e₂, -, hrun⟩ := hrun
    split at hrun
    · obtain ⟨row, -, hrun⟩ := Outcome.bind_eq_ok.1 hrun
      obtain ⟨e₃, -, hrun⟩ := Outcome.bind_eq_ok.1 hrun
      exact Editor.hasChanges_of_moveOpBefore hrun
    · exact Editor.hasChanges_of_moveOpBefore hrun

theorem hasChanges_of_leaveLoop? (hrun : leaveLoop? e o = .ok (some e')) : e'.hasChanges := by
  obtain ⟨sole, -, hrun⟩ := Outcome.bind_eq_ok.1 hrun
  cases sole with
  | none => simp at hrun
  | some outer =>
    simp only [Outcome.bind_eq_ok] at hrun
    obtain ⟨loop, -, hrun⟩ := hrun
    split at hrun
    · simp at hrun
    obtain ⟨hollow, -, hrun⟩ := Outcome.bind_eq_ok.1 hrun
    split at hrun
    · simp at hrun
    simp only [Outcome.bind_eq_ok, Outcome.pure_eq_ok, Option.some.injEq] at hrun
    obtain ⟨b, -, e₁, hswap, rfl⟩ := hrun
    exact hasChanges_of_swap hswap

theorem hasChanges_of_leaveConditional? (hrun : leaveConditional? e o = .ok (some e')) :
    e'.hasChanges := by
  obtain ⟨sole, -, hrun⟩ := Outcome.bind_eq_ok.1 hrun
  cases sole with
  | none => simp at hrun
  | some outer =>
    simp only [Outcome.bind_eq_ok] at hrun
    obtain ⟨conditional, -, hrun⟩ := hrun
    split at hrun
    · simp at hrun
    simp only [Outcome.bind_eq_ok] at hrun
    obtain ⟨b, -, row, -, hrun⟩ := hrun
    split at hrun
    · simp at hrun
    obtain ⟨hollow, -, hrun⟩ := Outcome.bind_eq_ok.1 hrun
    split at hrun
    · simp at hrun
    simp only [Outcome.bind_eq_ok, Outcome.pure_eq_ok, Option.some.injEq] at hrun
    obtain ⟨e₁, hswap, rfl⟩ := hrun
    exact hasChanges_of_swap hswap

/-! ## What is moved into a region -/

/-- Either nothing is moved into the region and nothing is changed, or something is. -/
theorem absorbAll_changes {n moved moved' : Nat} {stop : Stop}
    (hrun : absorbAll o n e moved = .ok (e', moved', stop)) :
    moved' = moved ∧ e' = e ∨ moved < moved' ∧ e'.hasChanges := by
  induction n generalizing e moved with
  | zero =>
    simp only [absorbAll, Outcome.pure_eq_ok, Prod.mk.injEq] at hrun
    exact .inl ⟨hrun.2.1.symm, hrun.1.symm⟩
  | succ n ih =>
    have hwall {stop' : Stop} (hrun : (pure (e, moved, stop') : Except Fault _) =
        .ok (e', moved', stop)) : moved' = moved ∧ e' = e ∨ moved < moved' ∧ e'.hasChanges := by
      simp only [Outcome.pure_eq_ok, Prod.mk.injEq] at hrun
      exact .inl ⟨hrun.2.1.symm, hrun.1.symm⟩
    rw [absorbAll] at hrun
    obtain ⟨found, -, hrun⟩ := Outcome.bind_eq_ok.1 hrun
    cases found with
    | none => exact hwall hrun
    | some previous =>
      simp only [Outcome.bind_eq_ok] at hrun
      obtain ⟨region, -, hrun⟩ := hrun
      split at hrun
      · exact hwall hrun
      obtain ⟨readOnly, -, hrun⟩ := Outcome.bind_eq_ok.1 hrun
      split at hrun
      · exact hwall hrun
      obtain ⟨used, -, hrun⟩ := Outcome.bind_eq_ok.1 hrun
      split at hrun
      · exact hwall hrun
      obtain ⟨e₁, habsorb, hrun⟩ := Outcome.bind_eq_ok.1 hrun
      right
      rcases ih hrun with ⟨rfl, rfl⟩ | ⟨hlt, hchanges⟩
      · exact ⟨Nat.lt_succ_self moved, hasChanges_of_absorb habsorb⟩
      · exact ⟨(Nat.lt_succ_self moved).trans hlt, hchanges⟩

/-- What may be moved into a region is before it in its block: as many steps as there are operations
    before it are enough, and what is done does not depend on how many more are allowed. -/
theorem absorbAll_budget (h : e.context.Stable root) (ho : e.context.Within o root) (hne : o ≠ root)
    (hkind : e.context.kindOf o = .parallel) {b : BlockRef} {before after : List OpRef}
    (hops : e.context.opsOf b = before ++ o :: after) {n : Nat} (hn : before.length < n)
    (moved : Nat) : absorbAll o (n + 1) e moved = absorbAll o n e moved := by
  induction n generalizing e before after moved with
  | zero => exact absurd hn (Nat.not_lt_zero _)
  | succ n ih =>
    rw [absorbAll, absorbAll]
    refine Outcome.bind_congr fun found hfound => ?_
    cases found with
    | none => rfl
    | some previous =>
      dsimp only
      refine Outcome.bind_congr fun region hregion => ?_
      obtain ⟨-, rfl⟩ := isKind_eq_ok hregion
      split
      · rfl
      rename_i hregion
      refine Outcome.bind_congr fun readOnly hreadOnly => ?_
      cases readOnly with
      | false => rfl
      | true =>
      refine Outcome.bind_congr fun used hused => ?_
      cases used with
      | false => rfl
      | true =>
      refine Outcome.bind_congr fun e₁ habsorb => ?_
      obtain ⟨c, before', after', hsplit⟩ := previous_eq_some hfound
      obtain rfl : b = c := h.sound.coherent.ops.owner_unique (c := o) (by simp [hops]) (by simp [hsplit])
      obtain ⟨team⟩ := h.nonempty_team ho hkind
      let s : e.context.Absorb o previous := ⟨team, b, before', after', hsplit,
        fun hp => hregion (decide_eq_true hp), hreadOnly, usedOnlyInside_eq_true hused⟩
      obtain ⟨σ, copy, d⟩ := absorb_spec h.sound s habsorb
      have hstep : Step root e.context e₁.context := .absorb s σ copy ho hne d
      -- one operation less is before the region
      have hlength : before.length = before'.length + 1 := by
        have hnodup := h.sound.coherent.ops.nodup b
        have heq : before ++ o :: after = (before' ++ [previous]) ++ o :: after' := by
          rw [← hops, hsplit, List.append_assoc]
          rfl
        rw [hops] at hnodup
        rw [(Position.split_unique hnodup heq).1, List.length_append, List.length_singleton]
      have hshort : s.before.length < n := by
        rw [hlength] at hn
        exact Nat.lt_of_succ_lt_succ hn
      exact ih (hstep.stable h) (d.within h.sound ho (s.region_not_within h.sound))
        ((d.evolves.kindOf team.hasOp).trans hkind) (d.place h.sound) hshort (moved + 1)

theorem absorbAll_enough (h : e.context.Stable root) (ho : e.context.Within o root) (hne : o ≠ root)
    (hkind : e.context.kindOf o = .parallel) {b : BlockRef} (hb : e.context.blockOf o = some b)
    {n : Nat} (hn : (e.context.opsOf b).length < n) (moved : Nat) :
    absorbAll o n e moved = absorbAll o ((e.context.opsOf b).length + 1) e moved := by
  obtain ⟨before, after, hops⟩ := List.append_of_mem ((h.sound.coherent.ops.owner_iff o b).1 hb)
  have hlength : before.length < (e.context.opsOf b).length := by
    rw [hops, List.length_append, List.length_cons]
    omega
  induction n, hn using Nat.le_induction with
  | base => rfl
  | succ n hn ih => exact (absorbAll_budget h ho hne hkind hops (by omega) moved).trans ih

/-! ## Attempts -/

theorem hasChanges_of_merge? (hrun : merge? e o = .ok (some e')) : e'.hasChanges := by
  rw [merge?] at hrun
  obtain ⟨kind, -, hrun⟩ := Outcome.bind_eq_ok.1 hrun
  split at hrun
  · simp at hrun
  obtain ⟨row, -, hrun⟩ := Outcome.bind_eq_ok.1 hrun
  cases hb : row.parent with
  | none => simp [hb] at hrun
  | some b =>
    simp only [hb, Outcome.bind_eq_ok] at hrun
    obtain ⟨block, -, hrun⟩ := hrun
    split at hrun
    · simp at hrun
    obtain ⟨other, -, hrun⟩ := Outcome.bind_eq_ok.1 hrun
    split at hrun
    · simp at hrun
    obtain ⟨⟨e₁, moved, stop⟩, habsorb, hrun⟩ := Outcome.bind_eq_ok.1 hrun
    cases stop with
    | atRegion previous =>
      simp only [Outcome.bind_eq_ok, Outcome.pure_eq_ok, Option.some.injEq] at hrun
      obtain ⟨e₂, hfuse, rfl⟩ := hrun
      exact hasChanges_of_fuse hfuse
    | atWall =>
      dsimp only at hrun
      split at hrun
      · simp at hrun
      rename_i hmoved
      simp only [Outcome.pure_eq_ok, Option.some.injEq] at hrun
      exact hrun ▸ ((absorbAll_changes habsorb).resolve_left fun h => hmoved h.1).2


/-- Merging as it is done in place: whether it applies, and the editor that is left. At most
    `budget` operations are moved into the region. -/
def mergeInPlace (budget : Nat) (e : Editor) (o : OpRef) : Except Fault (Bool × Editor) := do
  if !(← e.context.isKind o .parallel) then return (false, e)
  let some b := (← e.context.op o).parent | return (false, e)
  if (← e.context.block b).ops.head? = some o then return (false, e)
  if !(← hasOther e.context o) then return (false, e)
  let (e, moved, stop) ← absorbAll o budget e 0
  match stop with
  | .atRegion previous => return (true, ← fuse e o previous)
  | .atWall => return (0 < moved, e)

/-- What is left of an editor in place after an attempt. -/
def leftOf (e : Editor) (answer : Option Editor) : Bool × Editor :=
  (answer.isSome, answer.getD e)

/-- Merging in place does what merging does, and has changed nothing if it does not apply. It ends by
    itself as long as it may move the operations in the block of the region. -/
theorem mergeInPlace_eq (h : e.context.Stable root) (ho : e.context.Within o root) (hne : o ≠ root)
    {budget : Nat} (hbudget : ∀ b, e.context.blockOf o = some b →
      (e.context.opsOf b).length < budget) :
    mergeInPlace budget e o = leftOf e <$> merge? e o := by
  have hc := h.sound.coherent
  have hex := hc.hasOp_of_within' ho h.hasRoot
  obtain ⟨row, hrow⟩ := hasOp_iff.1 hex
  have hparent : e.context.blockOf o = row.parent := readOp_of_op hrow _ _
  rw [mergeInPlace, merge?, isKind_ok hex, hrow]
  simp only [Outcome.ok_bind]
  split
  · rfl
  rename_i hkind
  have hkind : e.context.kindOf o = .parallel := by simpa using hkind
  cases hb : row.parent with
  | none => rfl
  | some b =>
    rw [hb] at hparent
    obtain ⟨block, hblock⟩ := hasBlock_iff.1 (hc.hasBlock_of_blockOf hparent)
    have hops : e.context.opsOf b = block.ops := readBlock_of_block hblock _ _
    simp only [hblock, Outcome.ok_bind]
    split
    · rfl
    rw [absorbAll_enough h ho hne hkind hparent (hbudget b hparent), hops]
    cases hother : hasOther e.context o with
    | error fault => rfl
    | ok other =>
    cases other with
    | false => rfl
    | true =>
    cases habsorb : absorbAll o (block.ops.length + 1) e 0 with
    | error fault => rfl
    | ok answer =>
    obtain ⟨e₁, moved, stop⟩ := answer
    cases stop with
    | atRegion previous =>
      simp only [Outcome.ok_bind, Bool.not_true, Bool.false_eq_true, if_false]
      cases fuse e₁ o previous <;> rfl
    | atWall =>
      rcases absorbAll_changes habsorb with ⟨rfl, rfl⟩ | ⟨hpos, -⟩
      · rfl
      · simp only [Outcome.ok_bind, Bool.not_true, Bool.false_eq_true, if_false, hpos.ne']
        simp [hpos, leftOf, pure, Except.pure]

/-- Whatever a pattern changes is recorded. -/
theorem hasChanges_of_attempt {pattern : Pattern} (hpattern : pattern ∈ patterns)
    (hrun : pattern.attempt e o = .ok (some e')) : e'.hasChanges := by
  simp only [patterns, List.mem_cons, List.not_mem_nil, or_false] at hpattern
  rcases hpattern with rfl | rfl | rfl
  · exact hasChanges_of_merge? hrun
  · exact hasChanges_of_leaveLoop? hrun
  · exact hasChanges_of_leaveConditional? hrun

variable {path text : String} {findings : Findings}

/-- All parts of the operations of a valid program can be read, and every pattern can be applied to
    whatever is nested in its root. What a pattern changes is recorded, and a pattern that does not
    apply changes nothing, also if it is merging and works in place; that ends by itself. -/
theorem attempt_answers (hread : Context.empty.read path text = (.ok root, ctx))
    (hfindings : ctx.findings root = .ok findings) (hvalid : findings.isEmpty) :
    (∀ o, ctx.Within o root → ∃ parts, ctx.parts? o = .ok parts) ∧
      ∀ o, ctx.Within o root → o ≠ root →
        (∀ pattern ∈ patterns, ∃ answer, pattern.attempt { context := ctx } o = .ok answer ∧
          ∀ e ∈ answer, e.hasChanges) ∧
        ∃ applied e, (∀ budget, (∀ b, ctx.blockOf o = some b → (ctx.opsOf b).length < budget) →
            mergeInPlace budget { context := ctx } o = .ok (applied, e)) ∧
          (applied = true → e.hasChanges) ∧ (applied = false → e = { context := ctx }) := by
  have htight := tight_of_read hread hfindings hvalid
  have hvalid := Build.read_valid hread hfindings hvalid
  have hc := htight.sound.coherent
  refine ⟨fun o ho => ?_, fun o ho hne => ⟨fun pattern hpattern => ?_, ?_⟩⟩
  · exact (hvalid.shaped o ho).parts?_ok hc (hc.hasOp_of_within' ho htight.hasRoot)
      (Build.read_mentioned hread)
  · obtain ⟨answer, hrun, -⟩ := exists_attempt (e := { context := ctx }) htight ho hne hpattern
    exact ⟨answer, hrun, fun e he => hasChanges_of_attempt hpattern (hrun.trans (congrArg _ he))⟩
  · obtain ⟨answer, hrun, -⟩ := exists_merge? (e := { context := ctx }) htight ho hne
    refine ⟨(leftOf { context := ctx } answer).1, (leftOf { context := ctx } answer).2,
      fun budget hbudget => ?_, ?_⟩
    · rw [mergeInPlace_eq (e := { context := ctx }) htight.toStable ho hne hbudget, hrun]
      rfl
    · cases answer with
      | none => exact ⟨by simp [leftOf], fun _ => rfl⟩
      | some e => exact ⟨fun _ => hasChanges_of_merge? hrun, by simp [leftOf]⟩

set_option maxRecDepth 100000 in
theorem attempt_answers_regionInLoop : ∃ root ctx findings o,
    Context.empty.read "f" regionInLoop = (.ok root, ctx) ∧ ctx.findings root = .ok findings ∧
      findings.isEmpty ∧ ctx.above o = some root ∧ (∃ parts, ctx.parts? o = .ok parts) ∧
      ∃ answer, leaveLoop.attempt { context := ctx } o = .ok answer ∧ ∀ e ∈ answer, e.hasChanges := by
  have hreads : Build.readsAs "f" regionInLoop fun root ctx =>
      !(ctx.childrenOf root).isEmpty := Build.readsAs_ofList (by decide +kernel)
  obtain ⟨root, ctx, findings, hread, hfindings, hvalid, htest⟩ := Build.exists_of_readsAs hreads
  have hsound := (Build.read_built hread).1
  obtain ⟨o, ho⟩ := List.exists_mem_of_ne_nil (ctx.childrenOf root) (by simpa using htest)
  have habove := hsound.coherent.mem_childrenOf.1 ho
  have hne : o ≠ root := fun e => hsound.grounded.not_within_above habove (e ▸ .refl o)
  obtain ⟨hparts, hattempts⟩ := attempt_answers hread hfindings hvalid
  exact ⟨root, ctx, findings, o, hread, hfindings, hvalid, habove, hparts o (within_of_above habove),
    (hattempts o (within_of_above habove) hne).1 leaveLoop (by simp [patterns])⟩

end Parallel

end Offload
