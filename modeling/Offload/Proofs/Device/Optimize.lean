import Offload.Device.Optimize
import Offload.Proofs.Device.Reduction

/-!
# The passes keep a module well formed

A pass over the functions keeps a module well formed if it makes a chain of reductions
of each (`Module.WellFormed.mapFunctions`): the functions that others call are called in
the same way as before. Sweeping functions does so too, because what is called or named
by metadata is not swept (`Module.WellFormed.sweepFunctionsOnce`).

So a module that is well formed before the passes of a level is well formed after them,
and optimization fails for no other reason than the level and the module that it was
given (`Module.optimize_error_iff`).
-/

namespace Offload.Device

open Relation (ReflTransGen)

namespace Function

variable {f g : Function}

theorem isDeclaration_eq : f.isDeclaration = f.labels.isEmpty := by
  simp [isDeclaration, labels]

/-- What a chain of reductions does not change. -/
structure Shrunk (f g : Function) : Prop where
  name : g.name = f.name
  linkage : g.linkage = f.linkage
  returnType : g.returnType = f.returnType
  parameters : g.parameters = f.parameters
  debug : g.debug = f.debug
  labels : g.labels = f.labels

theorem shrunk_of_chain (hr : ReflTransGen Reduces f g) : f.Shrunk g := by
  induction hr with
  | refl => exact ⟨rfl, rfl, rfl, rfl, rfl, rfl⟩
  | tail _ hstep ih =>
    obtain ⟨keep, σ, -, rfl⟩ := hstep
    exact ⟨ih.name, ih.linkage, ih.returnType, ih.parameters, ih.debug,
      labels_reduce.trans ih.labels⟩

namespace Shrunk

theorem isDeclaration (h : f.Shrunk g) : g.isDeclaration = f.isDeclaration := by
  rw [isDeclaration_eq, h.labels, isDeclaration_eq]

theorem sameSignature (h : f.Shrunk g) : f.sameSignature g = true := by
  simp [Function.sameSignature, parameterTypes, h.returnType, h.parameters]

end Shrunk

/-- A declaration has nothing to fold or to sweep. -/
theorem instructions_declaration (h : f.isDeclaration = true) : f.instructions = [] := by
  rw [instructions, List.isEmpty_iff.1 h, List.flatMap_nil]

theorem foldConstants_declaration (h : f.isDeclaration = true) : f.foldConstants = f := by
  rw [foldConstants, instructions_declaration h]
  rfl

end Function

namespace Module

variable {m : Module}

/-- What a round of the sweep of functions keeps, the sweep does. -/
theorem sweepFunctions_induction {P : Module → Prop} {m : Module} (h : P m)
    (hround : ∀ k, P k → P k.sweepFunctionsOnce) : P m.sweepFunctions := by
  rw [sweepFunctions]
  generalize m.functions.length + 1 = n
  induction n generalizing m with
  | zero => exact h
  | succ n ih =>
    rw [sweepFunctionsWithin]
    split
    · exact h
    · exact ih (hround m h)

/-- What every pass keeps, the passes of a level do. Constants are folded first, if at all. -/
theorem passes_induction {P : Module → Prop} {m : Module} {level : Nat} {small : Bool} (h : P m)
    (hfold : P (m.mapFunctions (·.foldConstants)))
    (hsweep : ∀ k, P k → P (k.mapFunctions (·.sweepInstructions)))
    (hround : ∀ k, P k → P k.sweepFunctionsOnce) : P (m.passes level small) := by
  have hfolded : P (if 2 ≤ level then m.mapFunctions (·.foldConstants) else m) := by
    split
    · exact hfold
    · exact h
  rw [passes]
  generalize (if 2 ≤ level then m.mapFunctions (·.foldConstants) else m) = k at hfolded
  have hswept : P (if 1 ≤ level then k.mapFunctions (·.sweepInstructions) else k) := by
    split
    · exact hsweep k hfolded
    · exact hfolded
  split
  · exact sweepFunctions_induction hswept hround
  · exact hswept

namespace WellFormed

/-- A definition or a declaration folds by a chain of reductions. -/
theorem foldConstants_chain (h : m.WellFormed) {f : Function} (hf : f ∈ m.functions) :
    ReflTransGen Function.Reduces f f.foldConstants := by
  cases hbody : f.isDeclaration with
  | true => rw [Function.foldConstants_declaration hbody]
  | false => exact Function.foldConstants_chain (h.fits f hf hbody).values

/-- A pass that makes chains of reductions keeps a module well formed. -/
theorem mapFunctions (h : m.WellFormed) {φ : Function → Function}
    (hφ : ∀ f ∈ m.functions, ReflTransGen Function.Reduces f (φ f)) :
    (m.mapFunctions φ).WellFormed := by
  have hshrunk : ∀ f ∈ m.functions, f.Shrunk (φ f) := fun f hf =>
    Function.shrunk_of_chain (hφ f hf)
  have hnames : (m.mapFunctions φ).functions.map (·.name) = m.functions.map (·.name) := by
    rw [Module.mapFunctions, List.map_map]
    exact List.map_congr_left fun f hf => (hshrunk f hf).name
  have hcallees : ∀ name g, m.function? name = some g →
      (m.mapFunctions φ).function? name = some (φ g) := by
    intro name g hg
    obtain ⟨hmem, rfl⟩ := function?_mem hg
    exact (function?_eq_some (hnames ▸ h.names)).2
      ⟨List.mem_map_of_mem hmem, (hshrunk g hmem).name⟩
  refine ⟨hnames ▸ h.names, ?_, ?_, h.lists, h.references, ?_⟩
  · intro f' hf'
    obtain ⟨f, hf, rfl⟩ := List.mem_map.1 hf'
    rw [(hshrunk f hf).debug]
    exact h.debug f hf
  · intro f' hf'
    obtain ⟨f, hf, rfl⟩ := List.mem_map.1 hf'
    rw [(hshrunk f hf).isDeclaration]
    intro hbody
    refine (Function.fits_chain (hφ f hf) (h.fits f hf hbody)).mono ?_ fun _ hr => hr
    intro _ _ name _ g hg
    exact ⟨φ g, hcallees name g hg, (hshrunk g (function?_mem hg).1).sameSignature⟩
  · intro node hnode name hname
    obtain ⟨g, hg⟩ := Option.isSome_iff_exists.1 (h.targets node hnode name hname)
    rw [hcallees name g hg]
    rfl

/-- What is referred to stays when functions are swept. -/
theorem function?_sweepFunctionsOnce (h : m.WellFormed) {name : String} {g : Function}
    (hg : m.function? name = some g) (hreferenced : name ∈ m.referencedFunctions) :
    m.sweepFunctionsOnce.function? name = some g := by
  obtain ⟨hmem, rfl⟩ := function?_mem hg
  have hnames : (m.sweepFunctionsOnce.functions.map (·.name)).Nodup :=
    h.names.sublist (List.filter_sublist.map _)
  refine (function?_eq_some hnames).2 ⟨List.mem_filter.2 ⟨hmem, ?_⟩, rfl⟩
  rw [List.contains_iff_mem.2 hreferenced, Bool.or_true]

/-- A round of the sweep of functions keeps a module well formed. -/
theorem sweepFunctionsOnce (h : m.WellFormed) : m.sweepFunctionsOnce.WellFormed := by
  have hkept : ∀ f ∈ m.sweepFunctionsOnce.functions, f ∈ m.functions := fun f hf =>
    (List.mem_filter.1 hf).1
  have hnames : (m.sweepFunctionsOnce.functions.map (·.name)).Nodup :=
    h.names.sublist (List.filter_sublist.map _)
  refine ⟨hnames, fun f hf => h.debug f (hkept f hf), ?_, h.lists, h.references, ?_⟩
  · intro f hf hbody
    refine (h.fits f (hkept f hf) hbody).mono ?_ fun _ hr => hr
    intro i hi name hname g hg
    refine ⟨g, ?_, by simp [Function.sameSignature]⟩
    by_cases hself : name = f.name
    · -- a call of itself does not keep a function, but this one is kept
      obtain ⟨hmem, hsame⟩ := function?_mem hg
      have heq : g = f := List.inj_on_of_nodup_map h.names hmem (hkept f hf) (hsame.trans hself)
      rw [heq]
      exact (function?_eq_some hnames).2 ⟨hf, hself.symm⟩
    · refine h.function?_sweepFunctionsOnce hg (List.mem_append_left _ ?_)
      refine List.mem_flatMap.2 ⟨f, hkept f hf, List.mem_flatMap.2 ⟨i, hi, ?_⟩⟩
      exact List.mem_append_left _
        (List.mem_filter.2 ⟨Option.mem_toList.2 hname, decide_eq_true hself⟩)
  · intro node hnode name hname
    obtain ⟨g, hg⟩ := Option.isSome_iff_exists.1 (h.targets node hnode name hname)
    rw [h.function?_sweepFunctionsOnce hg
      (List.mem_append_right _ (List.mem_flatMap.2 ⟨node, hnode, hname⟩))]
    rfl

theorem foldConstants (h : m.WellFormed) : (m.mapFunctions (·.foldConstants)).WellFormed :=
  h.mapFunctions fun _ hf => h.foldConstants_chain hf

theorem sweepInstructions (h : m.WellFormed) :
    (m.mapFunctions (·.sweepInstructions)).WellFormed :=
  h.mapFunctions fun f _ => f.sweepInstructions_chain

theorem sweepFunctions (h : m.WellFormed) : m.sweepFunctions.WellFormed :=
  sweepFunctions_induction h fun _ h => h.sweepFunctionsOnce

/-- The passes of every level keep a module well formed. -/
theorem passes (h : m.WellFormed) (level : Nat) (small : Bool) :
    (m.passes level small).WellFormed :=
  passes_induction h h.foldConstants (fun _ h => h.sweepInstructions) fun _ h => h.sweepFunctionsOnce

end WellFormed

/-- The passes find defects before they change anything, or not at all. -/
theorem runPasses_eq (m : Module) (level : Nat) (small : Bool) : m.runPasses level small =
    if m.defects = [] then (.ok (), m.passes level small) else (.error m.defects, m) := by
  by_cases h : m.defects = []
  · have hafter := defects_eq_nil_iff.2 ((defects_eq_nil_iff.1 h).passes level small)
    rw [runPasses, if_pos h]
    simp [h, hafter]
  · rw [runPasses, if_neg h, if_pos (by simpa using h)]

/-- Optimization succeeds on well-formed modules only, and cleans up what the passes leave. -/
theorem optimize_eq_ok {m m' : Module} {level : Int} (h : m.optimize level = (.ok (), m')) :
    m.WellFormed ∧ m' = (m.passes level.toNat false).cleanUp := by
  rw [optimize, optimizeWith, checkLevel, runPasses_eq] at h
  by_cases hlevel : 0 ≤ level ∧ level ≤ 3
  · by_cases hdefects : m.defects = []
    · simp only [hlevel, hdefects] at h
      exact ⟨defects_eq_nil_iff.1 hdefects, (congrArg Prod.snd h).symm⟩
    · simp [hlevel, hdefects, Except.mapError] at h
  · simp [hlevel] at h

/-- Optimization fails iff the level is out of range or the module has defects, and then
    it returns the module as it was. Every pass keeps a module without defects. -/
theorem optimize_error_iff (m : Module) (level : Int) :
    ((∃ e, (m.optimize level).1 = .error e) ↔ ¬(0 ≤ level ∧ level ≤ 3) ∨ m.defects ≠ []) ∧
      (∀ e, (m.optimize level).1 = .error e → (m.optimize level).2 = m) ∧
      (m.defects = [] →
        (m.mapFunctions (·.foldConstants)).defects = [] ∧
        (m.mapFunctions (·.sweepInstructions)).defects = [] ∧
        m.sweepFunctions.defects = [] ∧
        ∀ (n : Nat) (small : Bool), (m.passes n small).defects = []) := by
  refine ⟨?_, ?_, ?_⟩
  · rw [optimize, optimizeWith, checkLevel, runPasses_eq]
    by_cases hlevel : 0 ≤ level ∧ level ≤ 3
    · by_cases h : m.defects = [] <;> simp [hlevel, h, Except.mapError]
    · simp [hlevel]
  · rw [optimize, optimizeWith, checkLevel, runPasses_eq]
    intro e
    by_cases hlevel : 0 ≤ level ∧ level ≤ 3
    · by_cases h : m.defects = [] <;> simp [hlevel, h, Except.mapError]
    · simp [hlevel]
  · simp only [defects_eq_nil_iff]
    intro h
    exact ⟨h.foldConstants, h.sweepInstructions, h.sweepFunctions, h.passes⟩

end Module

/-- A function that computes constants, next to what is not used and to a test of its
    parameter. -/
def sampleFunction : Function where
  name := "main"
  linkage := .external
  returnType := .i32
  parameters := [⟨.i32, some "n"⟩, ⟨.ptr, some "p"⟩]
  blocks :=
    [⟨"entry",
      [{ result := some "a", action := .binary .add .i32 (.int 2) (.int 3) },
        { result := some "b", action := .binary .mul .i32 (.value "a") (.int 2) },
        { result := some "unused", action := .binary .sub .i32 (.value "n") (.value "b") },
        { result := none, action := .store .i32 (.value "b") (.value "p") },
        { result := some "c", action := .compareInt .ne .i32 (.value "n") (.value "b") },
        { result := none, action := .branch (.value "c") "then" "else" }]⟩,
      ⟨"then", [{ result := none, action := .ret (some (.i32, .value "a")) }]⟩,
      ⟨"else", [{ result := none, action := .ret (some (.i32, .value "n")) }]⟩]

def sampleModule : Module := { name := "sample", functions := [sampleFunction] }

/-- No level that exists stops it; another one does, and leaves it as it is. -/
theorem optimize_error_iff_sample : sampleModule.defects = [] ∧
    (¬∃ e, (sampleModule.optimize 3).1 = .error e) ∧
    (∃ e, (sampleModule.optimize 4).1 = .error e) ∧ (sampleModule.optimize 4).2 = sampleModule ∧
    (sampleModule.passes 3 false).defects = [] := by
  have hdefects : sampleModule.defects = [] := by decide +kernel
  obtain ⟨hgood, -, hpasses⟩ := sampleModule.optimize_error_iff 3
  obtain ⟨hbad, hsame, -⟩ := sampleModule.optimize_error_iff 4
  obtain ⟨e, he⟩ := hbad.2 (.inl (by decide))
  refine ⟨hdefects, fun h => ?_, ⟨e, he⟩, hsame e he, (hpasses hdefects).2.2.2 3 false⟩
  obtain hlevel | hbroken := hgood.1 h
  · exact hlevel (by decide)
  · exact hbroken hdefects

end Offload.Device
