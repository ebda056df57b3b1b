import Offload.Proofs.Device.Execution
import Offload.Proofs.Device.Optimize

/-!
# Optimized functions do what they did before

A run of a function is followed, step by step, by a run of a reduction of it
(`Interpretation.Matches`): that one has assigned the same values, those of the
instructions left out excepted, and where such an instruction folds, its value is the
constant in its place. It stands still where an instruction is left out. So a reduction
refines the function (`Function.Reduction.refines`), and folding and sweeping, which are
chains of reductions, do so too (`Module.foldConstants_sweepInstructions_refines`).
-/

namespace Offload.Device

open Relation (ReflTransGen)

variable {V : Type}

/-! ## Operands -/

/-- Data that are read in one way are read in another way elsewhere. -/
theorem mapM_map_eq_some {α β γ : Type} {read : α → Option γ} {read' : β → Option γ} {σ : α → β}
    {ps : List α} {vs : List γ} (h : ps.mapM read = some vs)
    (hsame : ∀ p ∈ ps, ∀ v, read p = some v → read' (σ p) = some v) :
    (ps.map σ).mapM read' = some vs := by
  induction ps generalizing vs with
  | nil => simpa using h
  | cons p ps ih =>
    rw [List.mapM_cons] at h
    obtain ⟨v, hv, h⟩ := Option.bind_eq_some_iff.1 h
    obtain ⟨ws, hws, h⟩ := Option.bind_eq_some_iff.1 h
    cases h
    obtain ⟨hfirst, hrest⟩ := List.forall_mem_cons.1 hsame
    rw [List.map_cons, List.mapM_cons, hfirst v hv, ih hws hrest]
    rfl

theorem mapM_eq_some_self {α : Type} {read : α → Option α} {ps : List α}
    (h : ∀ p ∈ ps, read p = some p) : ps.mapM read = some ps := by
  induction ps with
  | nil => rfl
  | cons p ps ih =>
    obtain ⟨hfirst, hrest⟩ := List.forall_mem_cons.1 h
    rw [List.mapM_cons, hfirst, ih hrest]
    rfl

/-- An action folds on constants alone. -/
theorem Action.isConstant_operand {a : Action} {o p : Operand} (h : a.fold? = some o)
    (hp : p ∈ a.operands) : p.isConstant = true := by
  unfold Action.fold? at h
  split at h
  case h_1 | h_2 | h_4 | h_5 =>
    obtain rfl | rfl := List.mem_pair.1 hp <;> rfl
  case h_3 =>
    rw [List.mem_singleton.1 hp]
    rfl
  case h_6 value _ =>
    rw [List.mem_singleton.1 hp]
    cases value with
    | int | float => rfl
    | _ => cases h
  case h_7 => cases h

/-- The point without some instructions, on other operands. -/
def Point.reduce (keep : Instruction → Bool) (σ : Operand → Operand) : Point V → Point V
  | .before rest => .before ((rest.filter keep).map (·.mapOperands σ))
  | .left v => .left v

/-- The number of instructions before the end of a block. -/
def Point.distance : Point V → ℕ
  | .before rest => rest.length
  | .left _ => 0

namespace Interpretation

variable {I : Interpretation V} {values : String → Option V}

/-- A constant is the same whatever has been assigned. -/
theorem read_constant {p : Operand} (h : p.isConstant = true) (values' : String → Option V) :
    I.read values p = I.read values' p := by
  cases p with
  | int | float => rfl
  | _ => cases h

/-- What folds has the value to which it does, whatever has been assigned. -/
theorem Agrees.read (hI : I.Agrees) {a : Action} {o : Operand} {vs : List V}
    (hfold : a.fold? = some o) (hread : a.operands.mapM (I.read values) = some vs)
    (values' : String → Option V) : I.read values' o = some (I.value a.kind vs) := by
  have hconstants : a.operands.mapM (I.read fun _ => none) = some vs := by
    conv_lhs => rw [← List.map_id a.operands]
    refine mapM_map_eq_some hread fun p hp v hv => ?_
    rwa [id, read_constant (Action.isConstant_operand hfold hp) values]
  rw [read_constant (Action.isConstant_of_fold? hfold) fun _ => none]
  exact hI a o vs hfold hconstants

/-! ## The simulation -/

/-- A state of a reduction stands for one of the function. -/
structure Matches (I : Interpretation V) (f : Function) (keep : Instruction → Bool)
    (σ : Operand → Operand) (s t : State V) : Prop where
  past : t.past = s.past
  point : t.point = s.point.reduce keep σ
  /-- What has been assigned is the same, but for the instructions left out. -/
  values : ∀ name, (∀ d ∈ f.instructions, keep d = false → d.result ≠ some name) →
    t.values name = s.values name
  /-- What was left out has the value to which it folds. -/
  folded : ∀ d ∈ f.instructions, keep d = false → ∀ name ∈ d.result, ∀ o,
    d.action.fold? = some o → ∀ v, s.values name = some v → ∀ values, I.read values o = some v
  inside : ∀ rest, s.point = .before rest → ∀ i ∈ rest, i ∈ f.instructions

variable {f : Function} {keep : Instruction → Bool} {σ : Operand → Operand} {s s' t : State V}
  {i : Instruction} {rest : List Instruction}

/-- The operands of an instruction that stays are what they were. -/
theorem Matches.read (hm : I.Matches f keep σ s t) (hr : f.Reduction keep σ)
    (hi : i ∈ f.instructions) (hkeep : keep i = true) {p : Operand} (hp : p ∈ i.action.operands)
    {v : V} (hv : I.read s.values p = some v) : I.read t.values (σ p) = some v := by
  obtain ⟨hsame, hstays⟩ | ⟨d, hd, hgone, name, hname, rfl, hfold⟩ := hr.operand i hi hkeep p hp
  · rw [hsame]
    cases p with
    | value name =>
      refine Eq.trans (hm.values name fun d hd hgone hresult => ?_) hv
      exact hstays d hd hgone name hresult rfl
    | _ => exact hv
  · exact hm.folded d hd hgone name hname _ hfold v hv t.values

/-- Where an instruction is left out, the reduction stands still. -/
theorem Matches.skip (hm : I.Matches f keep σ s t) (h : f.values.Nodup) (hI : I.Agrees)
    (hpoint : s.point = .before (i :: rest)) (hgone : keep i = false) {vs : List V}
    (hvs : i.action.operands.mapM (I.read s.values) = some vs) {v : V}
    (hv : I.perform s.past i.result i.action vs = .next v []) :
    I.Matches f keep σ
      { values := assign s.values i.result v, past := s.past ++ [], point := .before rest } t := by
  have hinside := hm.inside _ hpoint
  have hi := hinside i List.mem_cons_self
  refine ⟨?_, ?_, ?_, ?_, ?_⟩
  · rw [hm.past, List.append_nil]
  · rw [hm.point, hpoint, Point.reduce, List.filter_cons_of_neg (by simp [hgone])]
    rfl
  · intro name hother
    exact (hm.values name hother).trans (assign_of_ne (hother i hi hgone)).symm
  · intro d hd hgoned name hname o hfold w hw values
    by_cases hresult : i.result = some name
    · have hsame : d = i := Function.assigned_once h hd hi hname hresult
      subst hsame
      rw [perform_of_fold? hfold] at hv
      cases hv
      cases (assign_of_eq hresult).symm.trans hw
      exact hI.read hfold hvs values
    · have hbefore := (assign_of_ne hresult).symm.trans hw
      exact hm.folded d hd hgoned name hname o hfold w hbefore values
  · intro rest' hrest j hj
    cases hrest
    exact hinside j (List.mem_cons_of_mem i hj)

/-- An effect of an instruction that stays leads from matching states to such. -/
theorem Matches.advance (hm : I.Matches f keep σ s t) (h : f.values.Nodup)
    (hpoint : s.point = .before (i :: rest)) (hkeep : keep i = true) {e : Effect V}
    (hs : Interpretation.advance f s i.result rest e = some s') :
    ∃ t', Interpretation.advance (f.reduce keep σ) t i.result
      ((rest.filter keep).map (·.mapOperands σ)) e = some t' ∧ I.Matches f keep σ s' t' := by
  have hinside := hm.inside _ hpoint
  have hi := hinside i List.mem_cons_self
  have hrest : ∀ rest', Point.before (V := V) rest = .before rest' → ∀ j ∈ rest',
      j ∈ f.instructions := by
    intro rest' heq j hj
    cases heq
    exact hinside j (List.mem_cons_of_mem i hj)
  cases e with
  | next v events =>
    cases hs
    refine ⟨_, rfl, by rw [hm.past], rfl, ?_, ?_, hrest⟩
    · intro name hother
      simp only [assign]
      split
      · rfl
      · exact hm.values name hother
    · intro d hd hgone name hname o hfold w hw
      have hresult : i.result ≠ some name := by
        intro hresult
        rw [Function.assigned_once h hi hd hresult hname, hgone] at hkeep
        cases hkeep
      exact hm.folded d hd hgone name hname o hfold w ((assign_of_ne hresult).symm.trans hw)
  | store event =>
    cases hs
    exact ⟨_, rfl, by rw [hm.past], rfl, hm.values, hm.folded, hrest⟩
  | goto label events =>
    obtain ⟨b, hb, rfl⟩ := Option.map_eq_some_iff.1 hs
    have hblock : (f.reduce keep σ).blocks.find? (·.label = label) = some (b.reduce keep σ) := by
      rw [Function.reduce, List.find?_map]
      exact Option.map_eq_some_iff.2 ⟨b, hb, rfl⟩
    refine ⟨_, Option.map_eq_some_iff.2 ⟨_, hblock, rfl⟩, ?_, rfl, hm.values, hm.folded, ?_⟩
    · rw [hm.past]
    intro rest' heq j hj
    cases heq
    exact Function.mem_instructions.2 ⟨b, List.mem_of_find?_eq_some hb, hj⟩
  | leave v =>
    cases hs
    refine ⟨_, rfl, hm.past, rfl, hm.values, hm.folded, ?_⟩
    intro rest' heq
    cases heq

/-- A step is matched by a step, or by standing still nearer to the end of the block. -/
theorem Matches.step (hm : I.Matches f keep σ s t) (h : f.values.Nodup)
    (hr : f.Reduction keep σ) (hI : I.Agrees) (hs : I.step f s = some s') :
    I.Matches f keep σ s' t ∧ s'.point.distance < s.point.distance ∨
      ∃ t', I.step (f.reduce keep σ) t = some t' ∧ I.Matches f keep σ s' t' := by
  unfold Interpretation.step at hs
  split at hs
  case h_2 => cases hs
  case h_1 i rest hpoint =>
    obtain ⟨vs, hvs, hs⟩ := Option.bind_eq_some_iff.1 hs
    have hi := hm.inside _ hpoint i List.mem_cons_self
    cases hkeep : keep i with
    | false =>
      obtain ⟨v, hv⟩ : ∃ v, I.perform s.past i.result i.action vs = .next v [] :=
        perform_isDeadIfUnused (hr.silent i hi hkeep)
      rw [hv] at hs
      cases hs
      refine .inl ⟨hm.skip h hI hpoint hkeep hvs hv, ?_⟩
      rw [hpoint]
      exact Nat.lt_succ_self _
    | true =>
      refine .inr ?_
      obtain ⟨t', ht', hmatch⟩ := hm.advance h hpoint hkeep hs
      refine ⟨t', ?_, hmatch⟩
      have hread : (i.action.mapOperands σ).operands.mapM (I.read t.values) = some vs := by
        rw [Action.operands_mapOperands]
        exact mapM_map_eq_some hvs fun p hp v hv => hm.read hr hi hkeep hp hv
      have htpoint : t.point = .before
          (i.mapOperands σ :: (rest.filter keep).map (·.mapOperands σ)) := by
        rw [hm.point, hpoint, Point.reduce, List.filter_cons_of_pos hkeep, List.map_cons]
      rw [Interpretation.step, htpoint]
      simp only [Instruction.mapOperands, hread, Option.bind_eq_bind, Option.bind_some,
        perform_mapOperands, hm.past]
      exact ht'

/-- A reduction starts like the function. -/
theorem matches_start (h : f.values.Nodup) (args : List V) :
    I.Matches f keep σ (f.start args) ((f.reduce keep σ).start args) where
  past := rfl
  point := by
    cases hblocks : f.blocks <;>
      simp [Function.start, Function.reduce, Point.reduce, Block.reduce, hblocks]
  values := fun _ _ => rfl
  folded := by
    intro d hd _ name hname _ _ v hv
    -- parameters are not assigned by instructions
    obtain ⟨⟨p, arg⟩, hfound, -⟩ := Option.map_eq_some_iff.1 hv
    have hp : p ∈ f.parameters := (List.of_mem_zip (List.mem_of_find?_eq_some hfound)).1
    have hparam : p.name = some name := by simpa using List.find?_some hfound
    have hdistinct := (List.nodup_append.1 h).2.2
    exact absurd rfl (hdistinct name (List.mem_filterMap.2 ⟨p, hp, hparam⟩) name
      (List.mem_filterMap.2 ⟨d, hd, hname⟩))
  inside := by
    intro rest heq i hi
    cases heq
    cases hblocks : f.blocks with
    | nil => simp [hblocks] at hi
    | cons b bs =>
      refine Function.mem_instructions.2 ⟨b, by simp [hblocks], ?_⟩
      simpa [hblocks] using hi

end Interpretation

/-! ## Refinement -/

variable {I : Interpretation V} {f g : Function}

open Interpretation in
/-- A reduction refines a function whose values are assigned once. -/
theorem Function.Reduces.refines (hr : f.Reduces g) (h : f.values.Nodup) (hI : I.Agrees)
    (args : List V) : I.Refines args f g := by
  obtain ⟨keep, σ, hr, rfl⟩ := hr
  have hstart : I.Matches f keep σ (f.start args) ((f.reduce keep σ).start args) :=
    matches_start h args
  constructor
  · intro s hs
    have hmatched : ∃ t, I.Reaches (f.reduce keep σ) args t ∧ I.Matches f keep σ s t := by
      induction hs with
      | refl => exact ⟨_, .refl, hstart⟩
      | tail _ hstep ih =>
        obtain ⟨t, ht, hm⟩ := ih
        obtain ⟨hm, -⟩ | ⟨t', ht', hm⟩ := hm.step h hr hI hstep
        · exact ⟨t, ht, hm⟩
        · exact ⟨t', ht.tail ht', hm⟩
    obtain ⟨t, ht, hm⟩ := hmatched
    refine ⟨t, ht, hm.past, fun v hv => ?_⟩
    rw [hm.point, hv]
    rfl
  · intro run hrun
    obtain ⟨run', φ, hfirst, hsteps, hφ, hmatches⟩ := exists_endless
      (R := I.Matches f keep σ) (q := I.step (f.reduce keep σ)) (μ := (·.point.distance))
      (fun _ _ _ hm hs => hm.step h hr hI hs) hrun.2 (hrun.1 ▸ hstart)
    exact ⟨run', φ, ⟨hfirst, hsteps⟩, hφ, fun n => (hmatches n).past⟩

/-- So does a chain of reductions. -/
theorem Function.refines_chain (hr : ReflTransGen Reduces f g) (h : f.values.Nodup)
    (hI : I.Agrees) (args : List V) : I.Refines args f g := by
  induction hr using ReflTransGen.head_induction_on with
  | refl => exact .refl
  | head hstep _ ih => exact (hstep.refines h hI args).trans (ih (hstep.nodup_values h))

/-- A declaration is left as it is. -/
theorem Function.sweepInstructions_declaration (h : f.isDeclaration = true) :
    f.sweepInstructions = f := by
  have hnone := instructions_declaration h
  have hround : f.sweepOnce.instructions = [] := by
    rw [sweepOnce, instructions_filterInstructions, hnone, List.filter_nil]
  rw [sweepInstructions, hnone]
  simp [sweepWithin, hround, hnone]

/-- Folding and then sweeping a function of a well-formed module leaves all that it can
    be seen to do. -/
theorem Module.foldConstants_sweepInstructions_refines {m : Module} (hm : m.defects = [])
    (hf : f ∈ m.functions) (hI : I.Agrees) (args : List V) :
    I.Refines args f f.foldConstants.sweepInstructions := by
  have hwell := defects_eq_nil_iff.1 hm
  cases hbody : f.isDeclaration with
  | true =>
    rw [Function.foldConstants_declaration hbody, Function.sweepInstructions_declaration hbody]
    exact .refl
  | false =>
    have hvalues := (hwell.fits f hf hbody).values
    have hfold := Function.foldConstants_chain hvalues
    exact Function.refines_chain (hfold.trans (Function.sweepInstructions_chain _)) hvalues hI args

/-! ## An interpretation -/

/-- The action of a kind on operands, where it may fold. -/
def Action.refill : Action → List Operand → Action
  | .binary op type .., [a, b] => .binary op type a b
  | .negate type _, [a] => .negate type a
  | .compareInt c type .., [a, b] => .compareInt c type a b
  | .compareFloat c type .., [a, b] => .compareFloat c type a b
  | .convert op source _ target, [a] => .convert op source a target
  | a, _ => a

/-- Operands as data: what folds is the constant to which it does, and memory is empty. -/
def Interpretation.folding : Interpretation Operand where
  int := .int
  float := .float
  symbol := .symbol
  value kind vs := ((kind.refill vs).fold?).getD (.int 0)
  load _ _ _ := .int 0
  alloca _ _ _ := .int 0
  answer _ _ _ _ _ := .int 0
  holds v := v ≠ .int 0

theorem Interpretation.folding_read {o : Operand} (h : o.isConstant = true) :
    folding.read (fun _ => none) o = some o := by
  cases o with
  | int | float => rfl
  | _ => cases h

theorem Action.refill_kind {a : Action} {o : Operand} (h : a.fold? = some o) :
    a.kind.refill a.operands = a := by
  cases a with
  | load | alloca | store | address | call | ret | jump | branch => cases h
  | _ => rfl

theorem Interpretation.folding_agrees : folding.Agrees := by
  intro a o vs hfold hread
  have hoperands : a.operands.mapM (folding.read fun _ => none) = some a.operands :=
    mapM_eq_some_self fun p hp => folding_read (Action.isConstant_operand hfold hp)
  rw [hoperands] at hread
  cases hread
  rw [folding_read (Action.isConstant_of_fold? hfold)]
  simp [folding, Action.refill_kind hfold, hfold]

/-- The function stores the constant, goes the first way and returns the other constant, as
    it does before its computation is folded. -/
theorem foldConstants_sweepInstructions_refines_sample :
    sampleModule.defects = [] ∧ sampleFunction ∈ sampleModule.functions ∧
      Interpretation.folding.Agrees ∧ ∃ t,
        Interpretation.folding.Reaches sampleFunction.foldConstants.sweepInstructions
          [.int 1, .int 64] t ∧
        t.past = [.store .i32 (.int 10) (.int 64), .branch true] ∧
        t.point = .left (some (.int 5)) := by
  have hdefects : sampleModule.defects = [] := by decide +kernel
  have hmem : sampleFunction ∈ sampleModule.functions := List.mem_singleton_self _
  have hrun : (Interpretation.folding.run sampleFunction 7
      (sampleFunction.start [.int 1, .int 64])).map (fun s => (s.past, s.point)) =
        some ([.store .i32 (.int 10) (.int 64), .branch true], .left (some (.int 5))) := rfl
  obtain ⟨s, hs, hseen⟩ := Option.map_eq_some_iff.1 hrun
  obtain ⟨hpast, hleft⟩ := Prod.mk.injEq .. ▸ hseen
  have hrefines := Module.foldConstants_sweepInstructions_refines hdefects hmem
    Interpretation.folding_agrees [.int 1, .int 64]
  obtain ⟨t, ht, hsame, hend⟩ := hrefines.reaches s (Interpretation.reaches_of_run hs)
  exact ⟨hdefects, hmem, Interpretation.folding_agrees, t, ht, hsame.trans hpast, hend _ hleft⟩

end Offload.Device
