import Mathlib.Data.List.Pairwise
import Mathlib.Logic.Relation
import Offload.Device.Fold
import Offload.Device.Sweep
import Offload.Proofs.Device.WellFormed

/-!
# Reductions

Folding and sweeping do one thing: they leave out instructions whose value alone
matters, and put other operands in the place of some (`Function.reduce`). What makes
this right is that no instruction that stays uses the value of one that goes, unless
the operand in its place is the constant to which that one folds
(`Function.Reduction`). One fold is a reduction, and so is one round of a sweep; the
passes are chains of reductions (`Function.foldConstants_chain`,
`Function.sweepInstructions_chain`).

A function that fits into a module still does after a reduction
(`Function.Reduces.fits`).
-/

namespace Offload.Device

open Relation (ReflTransGen)

/-! ## What folds -/

/-- Only what matters by its value alone folds. -/
theorem Action.isDeadIfUnused_of_fold? {a : Action} {o : Operand} (h : a.fold? = some o) :
    a.isDeadIfUnused = true := by
  cases a <;> first | rfl | cases h

theorem Conversion.isConstant_of_fold? {c : Conversion} {source target : DataType}
    {p o : Operand} (h : c.fold? source target p = some o) : o.isConstant = true := by
  cases p with
  | int n =>
    cases c <;> cases h <;> rfl
  | float x =>
    obtain ⟨-, heq⟩ := Option.ite_none_right_eq_some.1 h
    cases heq
    rfl
  | _ => cases h

theorem Action.isConstant_of_fold? {a : Action} {o : Operand} (h : a.fold? = some o) :
    o.isConstant = true := by
  unfold Action.fold? at h
  split at h
  case h_1 | h_2 =>
    obtain ⟨-, -, rfl⟩ := Option.map_eq_some_iff.1 h
    rfl
  case h_3 | h_4 | h_5 =>
    cases h
    rfl
  case h_6 => exact Conversion.isConstant_of_fold? h
  case h_7 => cases h

theorem Operand.ne_value_of_isConstant {o : Operand} {name : String} (h : o.isConstant = true) :
    o ≠ .value name := by
  rintro rfl
  cases h

/-! ## Reductions -/

/-- The instruction on other operands. -/
def Instruction.mapOperands (σ : Operand → Operand) (i : Instruction) : Instruction :=
  { i with action := i.action.mapOperands σ }

/-- The block without some instructions, on other operands. -/
def Block.reduce (keep : Instruction → Bool) (σ : Operand → Operand) (b : Block) : Block :=
  { b with instructions := (b.instructions.filter keep).map (·.mapOperands σ) }

namespace Function

variable {m : Module} {f g : Function} {keep : Instruction → Bool} {σ : Operand → Operand}

/-- The function without some instructions, on other operands. -/
def reduce (f : Function) (keep : Instruction → Bool) (σ : Operand → Operand) : Function :=
  { f with blocks := f.blocks.map (·.reduce keep σ) }

/-- No instruction that stays uses the value of one that goes, unless that one folds to
    the operand in its place. -/
structure Reduction (f : Function) (keep : Instruction → Bool) (σ : Operand → Operand) :
    Prop where
  silent : ∀ d ∈ f.instructions, keep d = false → d.action.isDeadIfUnused = true
  operand : ∀ i ∈ f.instructions, keep i = true → ∀ p ∈ i.action.operands,
    (σ p = p ∧ ∀ d ∈ f.instructions, keep d = false → ∀ name ∈ d.result, p ≠ .value name) ∨
    ∃ d ∈ f.instructions, keep d = false ∧ ∃ name ∈ d.result, p = .value name ∧
      d.action.fold? = some (σ p)

/-- One function is a reduction of another. -/
def Reduces (f g : Function) : Prop :=
  ∃ keep σ, f.Reduction keep σ ∧ g = f.reduce keep σ

theorem instructions_reduce :
    (f.reduce keep σ).instructions = (f.instructions.filter keep).map (·.mapOperands σ) := by
  simp [reduce, instructions, Block.reduce, List.flatMap_map, List.filter_flatMap,
    List.map_flatMap]

/-- Each instruction of a reduction comes from one that stays. -/
theorem mem_instructions_reduce {j : Instruction} : j ∈ (f.reduce keep σ).instructions ↔
    ∃ i ∈ f.instructions, keep i = true ∧ i.mapOperands σ = j := by
  simp [instructions_reduce, and_assoc]

theorem labels_reduce : (f.reduce keep σ).labels = f.labels := by
  simp [labels, reduce, Block.reduce, Function.comp_def]

theorem values_reduce : (f.reduce keep σ).values =
    f.parameters.filterMap (·.name) ++ (f.instructions.filter keep).filterMap (·.result) := by
  rw [values, instructions_reduce, List.filterMap_map]
  rfl

theorem mem_values {name : String} : name ∈ f.values ↔
    (∃ p ∈ f.parameters, p.name = some name) ∨ ∃ i ∈ f.instructions, i.result = some name := by
  simp [values]

theorem nodup_values_reduce (h : f.values.Nodup) : (f.reduce keep σ).values.Nodup := by
  rw [values_reduce]
  exact h.sublist ((List.Sublist.refl _).append (List.filter_sublist.filterMap _))

/-- A value is assigned once. -/
theorem assigned_once (h : f.values.Nodup) {i j : Instruction} (hi : i ∈ f.instructions)
    (hj : j ∈ f.instructions) {name : String} (hname : i.result = some name)
    (hsame : j.result = some name) : i = j := by
  have hresults := (List.nodup_append.1 h).2.1
  rw [List.Nodup, List.pairwise_filterMap] at hresults
  have hsymm : Std.Symm fun i j : Instruction =>
      ∀ n, i.result = some n → ∀ k, j.result = some k → n ≠ k :=
    ⟨fun i j hij n hn k hk => (hij k hk n hn).symm⟩
  by_contra hne
  exact hresults.forall hi hj hne name hname name hsame rfl

/-- A terminator stays. -/
theorem Reduction.keep_terminator (hr : f.Reduction keep σ) {i : Instruction}
    (hi : i ∈ f.instructions) (hlast : i.action.isTerminator = true) : keep i = true := by
  by_contra hkeep
  have hsilent := hr.silent i hi (by simpa using hkeep)
  rw [Action.isTerminator_eq_false hsilent] at hlast
  cases hlast

/-- What a reduction leaves refers to values that are still there. -/
theorem Reduction.value_mem (hr : f.Reduction keep σ) {i : Instruction}
    (hi : i ∈ f.instructions) (hkeep : keep i = true)
    (hvalues : ∀ name, .value name ∈ i.action.operands → name ∈ f.values) {name : String}
    (hname : .value name ∈ (i.action.mapOperands σ).operands) :
    name ∈ (f.reduce keep σ).values := by
  rw [Action.operands_mapOperands] at hname
  obtain ⟨p, hp, heq⟩ := List.mem_map.1 hname
  obtain ⟨hsame, hstays⟩ | ⟨d, -, -, -, -, -, hfold⟩ := hr.operand i hi hkeep p hp
  · rw [heq] at hsame
    subst hsame
    rw [values_reduce, List.mem_append, List.mem_filterMap, List.mem_filterMap]
    refine (mem_values.1 (hvalues name hp)).imp_right ?_
    rintro ⟨d, hd, hresult⟩
    refine ⟨d, List.mem_filter.2 ⟨hd, ?_⟩, hresult⟩
    by_contra hgone
    exact hstays d hd (by simpa using hgone) name hresult rfl
  · exact absurd heq (Operand.ne_value_of_isConstant (Action.isConstant_of_fold? hfold))

theorem Reduction.closed (hr : f.Reduction keep σ) {b : Block} (hb : b ∈ f.blocks)
    (h : b.Closed) : (b.reduce keep σ).Closed := by
  obtain ⟨body, last, hsplit, hlast, hbody⟩ := h
  have hmem : last ∈ f.instructions := mem_instructions.2 ⟨b, hb, by simp [hsplit]⟩
  have hkeep : keep last = true := hr.keep_terminator hmem hlast
  refine ⟨(body.filter keep).map (·.mapOperands σ), last.mapOperands σ, ?_, ?_, ?_⟩
  · simp [Block.reduce, hsplit, List.filter_append, hkeep]
  · simpa [Instruction.mapOperands] using hlast
  · rw [List.forall_mem_map]
    intro i hi
    simpa [Instruction.mapOperands] using hbody i (List.mem_of_mem_filter hi)

theorem fits_action_reduce {a : Action} (h : a.Fits m f) :
    (a.mapOperands σ).Fits m (f.reduce keep σ) := by
  cases a with
  | call returnType callee args => simpa [Action.Fits, Action.mapOperands] using h
  | ret value => cases value <;> exact h
  | jump target =>
    change target ∈ (f.reduce keep σ).labels
    rwa [labels_reduce]
  | branch condition thenTarget elseTarget =>
    change thenTarget ∈ (f.reduce keep σ).labels ∧ elseTarget ∈ (f.reduce keep σ).labels
    rwa [labels_reduce]
  | _ => trivial

theorem Reduction.fits (hr : f.Reduction keep σ) (h : f.Fits m) : (f.reduce keep σ).Fits m where
  labels := by
    rw [labels_reduce]
    exact h.labels
  named := h.named
  values := nodup_values_reduce h.values
  valued := by
    intro j hj name hname
    obtain ⟨i, hi, -, rfl⟩ := mem_instructions_reduce.1 hj
    rw [Instruction.mapOperands, Action.resultType_mapOperands]
    exact h.valued i hi name hname
  closed := List.forall_mem_map.2 fun b hb => hr.closed hb (h.closed b hb)
  instructions := by
    intro j hj
    obtain ⟨i, hi, hkeep, rfl⟩ := mem_instructions_reduce.1 hj
    have hfits := h.instructions i hi
    exact ⟨fun name hname => hr.value_mem hi hkeep hfits.values hname, hfits.debug,
      fits_action_reduce hfits.action⟩

namespace Reduces

theorem fits (hr : f.Reduces g) (h : f.Fits m) : g.Fits m := by
  obtain ⟨keep, σ, hr, rfl⟩ := hr
  exact hr.fits h

theorem nodup_values (hr : f.Reduces g) (h : f.values.Nodup) : g.values.Nodup := by
  obtain ⟨keep, σ, -, rfl⟩ := hr
  exact nodup_values_reduce h

end Reduces

end Function

/-! ## Folding -/

theorem Instruction.fold?_eq_some {i : Instruction} {name : String} {o : Operand} :
    i.fold? = some (name, o) ↔ i.result = some name ∧ i.action.fold? = some o := by
  simp [Instruction.fold?, Option.bind_eq_some_iff]

/-- An instruction that does not assign a value. -/
def Instruction.other (name : String) (i : Instruction) : Bool := i.result ≠ some name

theorem filter_other {is : List Instruction} {name : String}
    (h : name ∉ is.filterMap (·.result)) : is.filter (·.other name) = is := by
  refine List.filter_eq_self.2 fun i hi => decide_eq_true ?_
  intro hname
  exact h (List.mem_filterMap.2 ⟨i, hi, hname⟩)

/-- What is taken out of a list is found by its value, if that is assigned once. -/
theorem takeFoldable_eq_some {is rest : List Instruction} {name : String} {o : Operand}
    (h : takeFoldable is = some ((name, o), rest)) :
    (∃ d ∈ is, d.result = some name ∧ d.action.fold? = some o) ∧
      ((is.filterMap (·.result)).Nodup → rest = is.filter (·.other name)) := by
  induction is generalizing rest with
  | nil => cases h
  | cons i is ih =>
    rw [takeFoldable] at h
    cases hi : i.fold? with
    | some found =>
      rw [hi] at h
      cases h
      obtain ⟨hresult, hfold⟩ := Instruction.fold?_eq_some.1 hi
      refine ⟨⟨i, List.mem_cons_self, hresult, hfold⟩, fun hnodup => ?_⟩
      rw [List.filterMap_cons_some hresult, List.nodup_cons] at hnodup
      rw [List.filter_cons_of_neg (by simp [Instruction.other, hresult]), filter_other hnodup.1]
    | none =>
      rw [hi] at h
      obtain ⟨⟨found, rest⟩, htake, heq⟩ := Option.map_eq_some_iff.1 h
      cases heq
      obtain ⟨⟨d, hd, hresult, hfold⟩, hrest⟩ := ih htake
      refine ⟨⟨d, List.mem_cons_of_mem i hd, hresult, hfold⟩, fun hnodup => ?_⟩
      have hother : i.other name = true := by
        refine decide_eq_true fun hname => ?_
        rw [List.filterMap_cons_some hname, List.nodup_cons] at hnodup
        exact hnodup.1 (List.mem_filterMap.2 ⟨d, hd, hresult⟩)
      rw [List.filter_cons_of_pos hother,
        ← hrest (hnodup.sublist ((List.sublist_cons_self i is).filterMap _))]

/-- What is taken out of blocks is found by its value, if that is assigned once. -/
theorem takeFoldableFrom_eq_some {bs rest : List Block} {name : String} {o : Operand}
    (h : takeFoldableFrom bs = some ((name, o), rest)) :
    (∃ d ∈ bs.flatMap (·.instructions), d.result = some name ∧ d.action.fold? = some o) ∧
      (((bs.flatMap (·.instructions)).filterMap (·.result)).Nodup → rest = bs.map fun b =>
        { b with instructions := b.instructions.filter (·.other name) }) := by
  induction bs generalizing rest with
  | nil => cases h
  | cons b bs ih =>
    rw [takeFoldableFrom] at h
    cases hb : takeFoldable b.instructions with
    | some found =>
      obtain ⟨found, left⟩ := found
      rw [hb] at h
      cases h
      obtain ⟨⟨d, hd, hresult, hfold⟩, hleft⟩ := takeFoldable_eq_some hb
      refine ⟨⟨d, List.mem_append_left _ hd, hresult, hfold⟩, fun hnodup => ?_⟩
      rw [List.flatMap_cons, List.filterMap_append, List.nodup_append] at hnodup
      obtain ⟨hfirst, -, hdistinct⟩ := hnodup
      have hname : name ∈ b.instructions.filterMap (·.result) :=
        List.mem_filterMap.2 ⟨d, hd, hresult⟩
      have hlater : ∀ c ∈ bs, c.instructions.filter (·.other name) = c.instructions := by
        refine fun c hc => filter_other fun hmem => ?_
        obtain ⟨i, hi, hresult⟩ := List.mem_filterMap.1 hmem
        exact hdistinct name hname name
          (List.mem_filterMap.2 ⟨i, List.mem_flatMap.2 ⟨c, hc, hi⟩, hresult⟩) rfl
      rw [List.map_cons, hleft hfirst]
      refine congrArg _ ?_
      conv_lhs => rw [← List.map_id bs]
      exact List.map_congr_left fun c hc => by rw [hlater c hc]; rfl
    | none =>
      rw [hb] at h
      obtain ⟨⟨found, rest⟩, htake, heq⟩ := Option.map_eq_some_iff.1 h
      cases heq
      obtain ⟨⟨d, hd, hresult, hfold⟩, hrest⟩ := ih htake
      refine ⟨⟨d, List.mem_append_right _ hd, hresult, hfold⟩, fun hnodup => ?_⟩
      rw [List.flatMap_cons, List.filterMap_append, List.nodup_append] at hnodup
      obtain ⟨-, hlater, hdistinct⟩ := hnodup
      have hfirst : b.instructions.filter (·.other name) = b.instructions := by
        refine filter_other fun hmem => ?_
        exact hdistinct name hmem name (List.mem_filterMap.2 ⟨d, hd, hresult⟩) rfl
      rw [List.map_cons, hfirst, ← hrest hlater]

namespace Function

variable {m : Module} {f g : Function}

/-- Folding one instruction is a reduction, if values are assigned once. -/
theorem reduces_foldOnce (h : f.values.Nodup) (hf : f.foldOnce = some g) : f.Reduces g := by
  obtain ⟨⟨⟨name, o⟩, blocks⟩, htake, rfl⟩ := Option.map_eq_some_iff.1 hf
  obtain ⟨⟨d, hd, hresult, hfold⟩, hblocks⟩ := takeFoldableFrom_eq_some htake
  have hresults : (f.instructions.filterMap (·.result)).Nodup := (List.nodup_append.1 h).2.1
  refine ⟨(·.other name), fun p => if p = .value name then o else p, ⟨?_, ?_⟩, ?_⟩
  · intro e he hgone
    have hsame : e.result = some name := by simpa [Instruction.other] using hgone
    rw [assigned_once h he hd hsame hresult]
    exact Action.isDeadIfUnused_of_fold? hfold
  · intro i hi hkeep p hp
    by_cases hname : p = .value name
    · refine .inr ⟨d, hd, by simp [Instruction.other, hresult], name, hresult, hname, ?_⟩
      rw [hfold, if_pos hname]
    · refine .inl ⟨if_neg hname, ?_⟩
      intro e he hgone n hn
      have hsame : e.result = some name := by simpa [Instruction.other] using hgone
      rw [hsame] at hn
      cases hn
      exact hname
  · rw [hblocks hresults]
    simp [replaceValue, mapActions, mapInstructions, reduce, Block.reduce, Function.comp_def,
      Instruction.mapOperands]

/-- What one fold leads to, all of them do. -/
theorem foldWithin_chain (n : Nat) (h : f.values.Nodup) :
    ReflTransGen Reduces f (f.foldWithin n) := by
  induction n generalizing f with
  | zero => exact .refl
  | succ n ih =>
    rw [foldWithin]
    cases hf : f.foldOnce with
    | none => exact .refl
    | some g =>
      have hstep := reduces_foldOnce h hf
      exact (ih (hstep.nodup_values h)).head hstep

/-- Folding is a chain of reductions. -/
theorem foldConstants_chain (h : f.values.Nodup) : ReflTransGen Reduces f f.foldConstants :=
  foldWithin_chain _ h

/-! ## Sweeping -/

theorem mem_usedValues {name : String} : name ∈ f.usedValues ↔
    ∃ i ∈ f.instructions, .value name ∈ i.action.operands := by
  rw [usedValues, List.mem_flatMap]
  refine exists_congr fun i => and_congr_right fun _ => ?_
  rw [List.mem_filterMap]
  constructor
  · rintro ⟨o, ho, hname⟩
    cases o with
    | value n =>
      cases hname
      exact ho
    | _ => cases hname
  · intro h
    exact ⟨_, h, rfl⟩

theorem mapOperands_id {i : Instruction} : i.mapOperands id = i := by
  rw [Instruction.mapOperands, Action.mapOperands_id]

/-- One round of a sweep is a reduction. -/
theorem reduces_sweepOnce (f : Function) : f.Reduces f.sweepOnce := by
  refine ⟨isNeeded f.usedValues, id, ⟨?_, ?_⟩, ?_⟩
  · intro d _ hgone
    simp only [isNeeded, Bool.or_eq_false_iff, Bool.not_eq_false'] at hgone
    exact hgone.1
  · intro i hi _ p hp
    refine .inl ⟨rfl, ?_⟩
    rintro d - hgone name hname rfl
    -- the value is used, so what assigns it is needed
    have hused : name ∈ f.usedValues := mem_usedValues.2 ⟨i, hi, hp⟩
    simp only [isNeeded, Bool.or_eq_false_iff] at hgone
    rw [Option.mem_def.1 hname, Option.any_some, List.contains_iff_mem.2 hused] at hgone
    cases hgone.2
  · simp [sweepOnce, filterInstructions, reduce, Block.reduce, mapOperands_id]

theorem sweepWithin_chain (n : Nat) : ReflTransGen Reduces f (f.sweepWithin n) := by
  induction n generalizing f with
  | zero => exact .refl
  | succ n ih =>
    simp only [sweepWithin]
    split
    · exact .refl
    · exact ih.head (reduces_sweepOnce f)

/-- Sweeping is a chain of reductions. -/
theorem sweepInstructions_chain (f : Function) : ReflTransGen Reduces f f.sweepInstructions :=
  sweepWithin_chain _

/-! ## Chains -/

theorem fits_chain (hr : ReflTransGen Reduces f g) (h : f.Fits m) : g.Fits m := by
  induction hr with
  | refl => exact h
  | tail _ hstep ih => exact hstep.fits ih

end Function

end Offload.Device
