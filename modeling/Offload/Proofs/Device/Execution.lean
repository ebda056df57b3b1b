import Mathlib.Logic.Function.Iterate
import Mathlib.Logic.Relation
import Mathlib.Order.Monotone.Basic
import Offload.Device.Fold
import Offload.Proofs.Device.Rewriting

/-!
# Runs of functions

What the instructions of a function do, in the order of a run, for any set `V` of data.
An `Interpretation` says what constants are, and what actions compute:

* the value of a load and of an `alloca`, and the answer of a call, may depend on all
  that was seen from outside so far: the stores, the calls and the ways taken at
  branches. Every call is seen, so any answers at all are those of some interpretation;
* the value of any other action depends on its kind and on its operands alone.

A run goes on as long as all values that are used have been assigned
(`Interpretation.step`). What can be seen of it are the stores, the calls and the
branches, in order (`State.past`), and what the function returns at last.

One function *refines* another if it can do what that one does, seen from outside: as
far as any run goes, and without an end where a run has none
(`Interpretation.Refines`). This follows from a simulation in which the refining
function may stand still, but not forever (`exists_endless`).
-/

namespace Offload.Device

open Relation (ReflTransGen)

variable {V : Type}

/-! ## States -/

/-- What is seen of a run from outside. -/
inductive Event (V : Type)
  | store (type : DataType) (value pointer : V)
  | call (returnType : DataType) (callee : String) (types : List DataType) (args : List V)
  /-- The way taken at a branch. -/
  | branch (taken : Bool)

/-- Where a run stands. -/
inductive Point (V : Type)
  /-- Before the rest of a block. -/
  | before (rest : List Instruction)
  /-- At its end, with the value that the function returns. -/
  | left (value : Option V)

/-- A state of a run. -/
structure State (V : Type) where
  values : String → Option V
  past : List (Event V)
  point : Point V

/-- The state in which a function starts, at its first block, with its parameters
    assigned. -/
def Function.start (f : Function) (args : List V) : State V where
  values name := ((f.parameters.zip args).find? (·.1.name = some name)).map Prod.snd
  past := []
  point := .before ((f.blocks.head?.map (·.instructions)).getD [])

/-! ## Interpretations -/

/-- The action without its operands. -/
def Action.kind (a : Action) : Action := a.mapOperands fun _ => .int 0

/-- What constants are, and what actions compute. -/
structure Interpretation (V : Type) where
  int : Int64 → V
  float : Double → V
  symbol : String → V
  /-- The value of an action of a kind. -/
  value : Action → List V → V
  load : List (Event V) → DataType → V → V
  alloca : List (Event V) → DataType → Option String → V
  /-- The answer of a call. -/
  answer : List (Event V) → DataType → String → List DataType → List V → V
  /-- Whether a datum is true as a condition. -/
  holds : V → Bool

/-- What an instruction does, besides what it assigns. -/
inductive Effect (V : Type)
  | next (value : V) (events : List (Event V))
  /-- A store has no value. -/
  | store (event : Event V)
  | goto (label : String) (events : List (Event V))
  | leave (value : Option V)

namespace Interpretation

variable (I : Interpretation V)

/-- The datum that an operand is, unless it is a value not yet assigned. -/
def read (values : String → Option V) : Operand → Option V
  | .value name => values name
  | .symbol name => some (I.symbol name)
  | .int n => some (I.int n)
  | .float x => some (I.float x)

/-- What an action does on data. -/
def perform (past : List (Event V)) (result : Option String) (a : Action) (vs : List V) :
    Effect V :=
  match a, vs with
  | .load type _, [pointer] => .next (I.load past type pointer) []
  | .alloca type, _ => .next (I.alloca past type result) []
  | .store type _ _, [value, pointer] => .store (.store type value pointer)
  | .call type callee args, vs =>
    let types := args.map Prod.fst
    .next (I.answer past type callee types vs) [.call type callee types vs]
  | .jump target, _ => .goto target []
  | .branch _ thenTarget elseTarget, [condition] =>
    .goto (if I.holds condition then thenTarget else elseTarget) [.branch (I.holds condition)]
  | .ret _, vs => .leave vs.head?
  | a, vs => .next (I.value a.kind vs) []

/-- Assign a value, if an instruction has one. -/
def assign (values : String → Option V) (result : Option String) (v : V) : String → Option V :=
  fun name => if result = some name then some v else values name

/-- Go on from a state, at the instructions after one that has an effect. -/
def advance (f : Function) (s : State V) (result : Option String) (rest : List Instruction) :
    Effect V → Option (State V)
  | .next v events =>
    some { values := assign s.values result v, past := s.past ++ events, point := .before rest }
  | .store event => some { s with past := s.past ++ [event], point := .before rest }
  | .goto label events =>
    (f.blocks.find? (·.label = label)).map fun b =>
      { s with past := s.past ++ events, point := .before b.instructions }
  | .leave v => some { s with point := .left v }

/-- One step of a run. There is none if a value is used before it is assigned. -/
def step (f : Function) (s : State V) : Option (State V) :=
  match s.point with
  | .before (i :: rest) => do
    let vs ← i.action.operands.mapM (I.read s.values)
    advance f s i.result rest (I.perform s.past i.result i.action vs)
  | _ => none

/-! ## Runs -/

/-- A run that has come to a state. -/
def Reaches (f : Function) (args : List V) : State V → Prop :=
  ReflTransGen (fun s t => I.step f s = some t) (f.start args)

/-- The state after some steps. -/
def run (f : Function) : ℕ → State V → Option (State V)
  | 0, s => some s
  | n + 1, s => (I.step f s).bind (run f n)

/-- A run without an end. -/
def Endless (f : Function) (args : List V) (run : ℕ → State V) : Prop :=
  run 0 = f.start args ∧ ∀ n, I.step f (run n) = some (run (n + 1))

/-- What is seen of a function can also be seen of another one. -/
structure Refines (args : List V) (f g : Function) : Prop where
  /-- As far as any run goes, and with the value that it returns. -/
  reaches : ∀ s, I.Reaches f args s → ∃ t, I.Reaches g args t ∧ t.past = s.past ∧
    ∀ v, s.point = .left v → t.point = .left v
  /-- Without an end, if a run has none. -/
  endless : ∀ run, I.Endless f args run → ∃ run' φ, I.Endless g args run' ∧ StrictMono φ ∧
    ∀ n, (run' n).past = (run (φ n)).past

/-- What folds has the value to which it does. -/
def Agrees : Prop :=
  ∀ (a : Action) (o : Operand) (vs : List V), a.fold? = some o →
    a.operands.mapM (I.read fun _ => none) = some vs →
    I.read (fun _ => none) o = some (I.value a.kind vs)

variable {I} {args : List V} {f g h : Function}

theorem reaches_of_run {n : ℕ} {s : State V} (h : I.run f n (f.start args) = some s) :
    I.Reaches f args s := by
  rw [Reaches]
  generalize f.start args = s₀ at h
  induction n generalizing s₀ with
  | zero =>
    cases h
    exact .refl
  | succ n ih =>
    obtain ⟨s₁, hfirst, hrest⟩ := Option.bind_eq_some_iff.1 h
    exact (ih s₁ hrest).head hfirst

theorem Refines.refl : I.Refines args f f where
  reaches s hs := ⟨s, hs, rfl, fun _ hv => hv⟩
  endless run hrun := ⟨run, id, hrun, strictMono_id, fun _ => rfl⟩

theorem Refines.trans (hfg : I.Refines args f g) (hgh : I.Refines args g h) :
    I.Refines args f h where
  reaches s hs := by
    obtain ⟨t, ht, hpast, hleft⟩ := hfg.reaches s hs
    obtain ⟨u, hu, hpast', hleft'⟩ := hgh.reaches t ht
    exact ⟨u, hu, hpast'.trans hpast, fun v hv => hleft' v (hleft v hv)⟩
  endless run hrun := by
    obtain ⟨run₁, φ, hrun₁, hφ, hpast⟩ := hfg.endless run hrun
    obtain ⟨run₂, ψ, hrun₂, hψ, hpast'⟩ := hgh.endless run₁ hrun₁
    refine ⟨run₂, φ ∘ ψ, hrun₂, hφ.comp hψ, fun n => ?_⟩
    rw [hpast' n, hpast (ψ n), Function.comp_apply]

theorem assign_of_eq {values : String → Option V} {result : Option String} {name : String} {v : V}
    (h : result = some name) : assign values result v name = some v := if_pos h

theorem assign_of_ne {values : String → Option V} {result : Option String} {name : String} {v : V}
    (h : result ≠ some name) : assign values result v name = values name := if_neg h

/-- What an action does depends on its operands only by what they are. -/
@[simp]
theorem perform_mapOperands {past : List (Event V)} {result : Option String} {a : Action}
    {σ : Operand → Operand} {vs : List V} :
    I.perform past result (a.mapOperands σ) vs = I.perform past result a vs := by
  cases a with
  | load | branch => obtain _ | ⟨v, _ | _⟩ := vs <;> rfl
  | store => obtain _ | ⟨v, _ | ⟨w, _ | _⟩⟩ := vs <;> rfl
  | call => simp [perform, Action.mapOperands, Function.comp_def]
  | _ => rfl

/-- What matters by its value alone does nothing else. -/
theorem perform_isDeadIfUnused {past : List (Event V)} {result : Option String} {a : Action}
    {vs : List V} (h : a.isDeadIfUnused = true) :
    ∃ v, I.perform past result a vs = .next v [] := by
  cases a with
  | load => obtain _ | ⟨v, _ | _⟩ := vs <;> exact ⟨_, rfl⟩
  | store | call | ret | jump | branch => cases h
  | _ => exact ⟨_, rfl⟩

/-- What folds computes from its kind and its operands. -/
theorem perform_of_fold? {past : List (Event V)} {result : Option String} {a : Action}
    {vs : List V} {o : Operand} (h : a.fold? = some o) :
    I.perform past result a vs = .next (I.value a.kind vs) [] := by
  cases a with
  | load | alloca | store | call | ret | jump | branch => cases h
  | _ => rfl

end Interpretation

/-! ## Simulations -/

section Simulation

variable {S T : Type} {p : S → Option S} {q : T → Option T} {R : S → T → Prop} {μ : S → ℕ}
  {run : ℕ → S}

/-- A simulation does not stand still forever. -/
theorem exists_move
    (hstep : ∀ s s' t, R s t → p s = some s' →
      R s' t ∧ μ s' < μ s ∨ ∃ t', q t = some t' ∧ R s' t')
    (hrun : ∀ n, p (run n) = some (run (n + 1))) (n : ℕ) (t : T) (h : R (run n) t) :
    ∃ k > n, ∃ t', q t = some t' ∧ R (run k) t' := by
  -- the measure falls with every step that is not matched
  induction hμ : μ (run n) using Nat.strongRecOn generalizing n with
  | ind measure ih =>
    obtain ⟨hstill, hless⟩ | ⟨t', ht', hmoved⟩ := hstep _ _ t h (hrun n)
    · obtain ⟨k, hk, hmove⟩ := ih _ (hμ ▸ hless) (n + 1) hstill rfl
      exact ⟨k, Nat.lt_of_succ_lt hk, hmove⟩
    · exact ⟨n + 1, Nat.lt_succ_self n, t', ht', hmoved⟩

/-- A run without an end is simulated by one, which leaves out some of its states. -/
theorem exists_endless
    (hstep : ∀ s s' t, R s t → p s = some s' →
      R s' t ∧ μ s' < μ s ∨ ∃ t', q t = some t' ∧ R s' t')
    (hrun : ∀ n, p (run n) = some (run (n + 1))) {t : T} (h : R (run 0) t) :
    ∃ (run' : ℕ → T) (φ : ℕ → ℕ), run' 0 = t ∧ (∀ n, q (run' n) = some (run' (n + 1))) ∧
      StrictMono φ ∧ ∀ n, R (run (φ n)) (run' n) := by
  choose k hk t' ht' hmoved using exists_move hstep hrun
  let move : {x : ℕ × T // R (run x.1) x.2} → {x : ℕ × T // R (run x.1) x.2} := fun x =>
    ⟨(k x.1.1 x.1.2 x.2, t' x.1.1 x.1.2 x.2), hmoved x.1.1 x.1.2 x.2⟩
  let path : ℕ → {x : ℕ × T // R (run x.1) x.2} := fun n => move^[n] ⟨(0, t), h⟩
  have hpath : ∀ n, path (n + 1) = move (path n) := fun n => Function.iterate_succ_apply' move n _
  refine ⟨fun n => (path n).1.2, fun n => (path n).1.1, rfl, fun n => ?_, ?_, fun n => (path n).2⟩
  · simp only [hpath]
    exact ht' _ _ _
  · refine strictMono_nat_of_lt_succ fun n => ?_
    simp only [hpath]
    exact hk _ _ _

end Simulation

end Offload.Device
