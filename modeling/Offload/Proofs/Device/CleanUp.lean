import Offload.Proofs.Device.Nodes
import Offload.Proofs.Device.Optimize

/-!
# Cleanups keep a module well formed, if debugging stands apart

The cleanups remove what is there for debuggers by its name: the calls of functions whose
names begin with `llvm.dbg.`, the declarations of these functions, and the lists with such
names. Of the nodes they leave those that the other lists lead to.

They do not ask whether something else needs what they remove. So a module that is well
formed is so after them iff nothing does (`Module.DebugApart`): no instruction uses the
value of a call that goes, and no node that stays names a declaration that goes
(`Module.WellFormed.cleanUp_iff`). As the passes of every level keep a module well formed,
this is also when optimization ends with a module without defects
(`Module.optimize_defects_iff`).
-/

namespace Offload.Device

/-! ## What the cleanups leave -/

/-- The action, with an address computed `inbounds`. -/
def Action.inbounds : Action → Action
  | .address _ element base indexType index => .address true element base indexType index
  | a => a

namespace Action

variable {a : Action}

@[simp]
theorem operands_inbounds : a.inbounds.operands = a.operands := by cases a <;> rfl

@[simp]
theorem callee?_inbounds : a.inbounds.callee? = a.callee? := by cases a <;> rfl

@[simp]
theorem resultType_inbounds : a.inbounds.resultType = a.resultType := by cases a <;> rfl

@[simp]
theorem isTerminator_inbounds : a.inbounds.isTerminator = a.isTerminator := by cases a <;> rfl

@[simp]
theorem isFloatMath_inbounds : a.inbounds.isFloatMath = a.isFloatMath := by cases a <;> rfl

theorem callee?_of_isTerminator (h : a.isTerminator = true) : a.callee? = none := by
  cases a <;> first | rfl | cases h

end Action

namespace Instruction

/-- Whether an instruction is a call for debuggers. -/
def isDebugCall (i : Instruction) : Bool := i.action.callee?.any Module.isDebugName

/-- What the cleanups make of an instruction that stays. -/
def cleaned (i : Instruction) : Instruction :=
  { i with
    action := i.action.inbounds
    contract := i.contract || i.action.isFloatMath
    debug := none }

variable {i : Instruction}

@[simp]
theorem isDebugCall_cleaned : i.cleaned.isDebugCall = i.isDebugCall := by
  rw [isDebugCall, isDebugCall, cleaned, Action.callee?_inbounds]

theorem isDebugCall_of_isTerminator (h : i.action.isTerminator = true) :
    i.isDebugCall = false := by
  rw [isDebugCall, Action.callee?_of_isTerminator h, Option.any_none]

end Instruction

namespace Function

variable {f g : Function} {i : Instruction} {name : String}

/-- Whether a function is only declared, for debuggers. -/
def isDebugStub (f : Function) : Bool := f.isDeclaration && Module.isDebugName f.name

/-- What the cleanups make of a function that stays. -/
def cleaned (f : Function) : Function :=
  { f with
    debug := none
    blocks := f.blocks.map fun b =>
      { b with instructions := (b.instructions.filter (!·.isDebugCall)).map (·.cleaned) } }

theorem instructions_cleaned :
    f.cleaned.instructions = (f.instructions.filter (!·.isDebugCall)).map (·.cleaned) := by
  simp [instructions, cleaned, List.flatMap_map, List.filter_flatMap, List.map_flatMap]

@[simp]
theorem labels_cleaned : f.cleaned.labels = f.labels := by
  simp [labels, cleaned, Function.comp_def]

@[simp]
theorem isDeclaration_cleaned : f.cleaned.isDeclaration = f.isDeclaration := by
  rw [isDeclaration_eq, labels_cleaned, isDeclaration_eq]

theorem values_cleaned : f.cleaned.values =
    f.parameters.filterMap (·.name) ++
      (f.instructions.filter (!·.isDebugCall)).filterMap (·.result) := by
  rw [values, instructions_cleaned, List.filterMap_map]
  rfl

/-- A value stays unless a call for debuggers assigns it. -/
theorem mem_values_cleaned : name ∈ f.cleaned.values ↔ (∃ p ∈ f.parameters, p.name = some name) ∨
    ∃ i ∈ f.instructions, i.isDebugCall = false ∧ i.result = some name := by
  simp [values_cleaned, and_assoc]

/-- What has an instruction is no mere declaration. -/
theorem isDebugStub_of_mem (hi : i ∈ f.instructions) : f.isDebugStub = false := by
  cases hbody : f.isDeclaration with
  | true => exact absurd hi (by rw [instructions_declaration hbody]; exact List.not_mem_nil)
  | false => rw [isDebugStub, hbody, Bool.false_and]

theorem closed_cleaned {b : Block} (h : ∀ c ∈ f.blocks, c.Closed) (hb : b ∈ f.cleaned.blocks) :
    b.Closed := by
  obtain ⟨c, hc, rfl⟩ := List.mem_map.1 hb
  obtain ⟨body, last, hsplit, hlast, hbody⟩ := h c hc
  refine ⟨(body.filter (!·.isDebugCall)).map (·.cleaned), last.cleaned, ?_, ?_, ?_⟩
  · have hstays : last.isDebugCall = false := Instruction.isDebugCall_of_isTerminator hlast
    simp [hsplit, hstays]
  · rwa [Instruction.cleaned, Action.isTerminator_inbounds]
  · rw [List.forall_mem_map]
    intro i hi
    rw [Instruction.cleaned, Action.isTerminator_inbounds]
    exact hbody i (List.mem_filter.1 hi).1

end Function

namespace Module

variable {m : Module} {f g : Function} {name : String}

/-- What the cleanups do to a function that stays, one after the other. -/
theorem stripDebugFrom_eq (f : Function) :
    stripDebugFrom ((f.mapActions Action.inbounds).mapInstructions fun i =>
      if i.action.isFloatMath then { i with contract := true } else i) = f.cleaned := by
  have hinstruction : ∀ i : Instruction,
      (if i.action.inbounds.isFloatMath
        then { i with action := i.action.inbounds, contract := true }
        else { i with action := i.action.inbounds } : Instruction) =
      { i.cleaned with debug := i.debug } := by
    intro i
    cases hmath : i.action.isFloatMath <;> simp [Instruction.cleaned, hmath]
  have hkept : ∀ i : Instruction, i.cleaned.action.callee?.any isDebugName = i.isDebugCall :=
    fun _ => Instruction.isDebugCall_cleaned
  simp only [stripDebugFrom, Function.mapActions, Function.mapInstructions,
    Function.filterInstructions, Function.cleaned, List.map_map, Function.comp_def, hinstruction,
    List.filter_map, hkept]
  rfl

/-- The cleanups remove the declarations for debuggers, and change every other function by
    itself. -/
theorem functions_cleanUp :
    m.cleanUp.functions = (m.functions.filter (!·.isDebugStub)).map (·.cleaned) := by
  have hbody : ∀ (f : Function) (change : Instruction → Instruction),
      (f.mapInstructions change).isDeclaration = f.isDeclaration := fun _ _ => List.isEmpty_map
  simp only [← stripDebugFrom_eq]
  rw [cleanUp, stripDebug, markContract, markInbounds, mapFunctions, mapFunctions]
  simp only [List.map_map, List.filter_map]
  refine congrArg (List.map _) (List.filter_congr fun f _ => ?_)
  rw [Function.isDebugStub, ← hbody f, ← hbody]
  rfl

theorem mem_functions_cleanUp : g ∈ m.cleanUp.functions ↔
    ∃ f ∈ m.functions, f.isDebugStub = false ∧ f.cleaned = g := by
  simp [functions_cleanUp, and_assoc]

theorem lists_cleanUp : m.cleanUp.lists = m.lists.filter (!isDebugName ·.name) := rfl

/-- The lists that stay lead to a node. -/
def Stays (m : Module) (r : NodeRef) : Prop :=
  m.nodes.Leads (m.lists.filter (!isDebugName ·.name)) r

theorem mem_entries_cleanUp {e : NodeRef × NodeDef} :
    e ∈ m.cleanUp.nodes.entries ↔ e ∈ m.nodes.entries ∧ m.Stays e.1 := by
  refine List.mem_filter.trans (and_congr_right fun _ => ?_)
  exact List.contains_iff_mem.trans mem_reachable

theorem contains_cleanUp {r : NodeRef} :
    m.cleanUp.nodes.contains r = true ↔ m.nodes.contains r = true ∧ m.Stays r := by
  rw [SortedMap.contains_iff, SortedMap.contains_iff]
  constructor
  · rintro ⟨e, he, rfl⟩
    obtain ⟨he, hstays⟩ := mem_entries_cleanUp.1 he
    exact ⟨⟨e, he, rfl⟩, hstays⟩
  · rintro ⟨⟨e, he, rfl⟩, hstays⟩
    exact ⟨e, mem_entries_cleanUp.2 ⟨he, hstays⟩, rfl⟩

/-! ## When nothing needs what goes -/

/-- Nothing that stays needs what is there for debuggers. -/
structure DebugApart (m : Module) : Prop where
  /-- No instruction uses the value of a call for debuggers, apart from other such calls. -/
  values : ∀ f ∈ m.functions, ∀ i ∈ f.instructions, i.isDebugCall = false →
    ∀ j ∈ f.instructions, j.isDebugCall = true → ∀ name ∈ j.result,
      .value name ∉ i.action.operands
  /-- No node that stays names a declaration for debuggers. -/
  targets : ∀ e ∈ m.nodes.entries, m.Stays e.1 → ∀ name ∈ e.2.node.functions,
    ∀ g, m.function? name = some g → g.isDebugStub = false

namespace WellFormed

theorem names_cleanUp (h : m.WellFormed) : (m.cleanUp.functions.map (·.name)).Nodup := by
  rw [functions_cleanUp, List.map_map]
  exact h.names.sublist (List.filter_sublist.map _)

/-- A function that the cleanups do not remove is found under its name. -/
theorem function?_cleanUp (h : m.WellFormed) (hg : m.function? name = some g)
    (hstays : g.isDebugStub = false) : m.cleanUp.function? name = some g.cleaned := by
  obtain ⟨hmem, rfl⟩ := function?_mem hg
  exact (function?_eq_some h.names_cleanUp).2 ⟨mem_functions_cleanUp.2 ⟨g, hmem, hstays, rfl⟩, rfl⟩

/-- An action that is no call for debuggers fits as before. -/
theorem fits_action_cleaned (h : m.WellFormed) {i : Instruction} (hkept : i.isDebugCall = false)
    (hi : i.action.Fits m f) : i.cleaned.action.Fits m.cleanUp f.cleaned := by
  obtain ⟨result, action, contract, debug⟩ := i
  cases action with
  | call returnType callee args =>
    obtain ⟨g, hg, hsame⟩ := hi
    have hstays : g.isDebugStub = false := by
      have hcallee : isDebugName g.name = false := (function?_mem hg).2 ▸ hkept
      rw [Function.isDebugStub, hcallee, Bool.and_false]
    exact ⟨g.cleaned, h.function?_cleanUp hg hstays, hsame⟩
  | ret value => exact hi
  | jump target =>
    change target ∈ f.cleaned.labels
    rwa [Function.labels_cleaned]
  | branch condition thenTarget elseTarget =>
    change thenTarget ∈ f.cleaned.labels ∧ elseTarget ∈ f.cleaned.labels
    rwa [Function.labels_cleaned]
  | _ => trivial

/-- A definition fits after the cleanups if it does not use what calls for debuggers assign. -/
theorem fits_cleaned (h : m.WellFormed) (hf : f ∈ m.functions) (hbody : f.isDeclaration = false)
    (hvalues : ∀ i ∈ f.instructions, i.isDebugCall = false → ∀ j ∈ f.instructions,
      j.isDebugCall = true → ∀ name ∈ j.result, .value name ∉ i.action.operands) :
    f.cleaned.Fits m.cleanUp := by
  have hfits := h.fits f hf hbody
  refine ⟨by rw [Function.labels_cleaned]; exact hfits.labels, hfits.named, ?_, ?_,
    fun b hb => Function.closed_cleaned hfits.closed hb, ?_⟩
  · rw [Function.values_cleaned]
    exact hfits.values.sublist ((List.Sublist.refl _).append (List.filter_sublist.filterMap _))
  · rw [Function.instructions_cleaned, List.forall_mem_map]
    intro i hi name hname
    rw [Instruction.cleaned, Action.resultType_inbounds]
    exact hfits.valued i (List.mem_filter.1 hi).1 name hname
  · rw [Function.instructions_cleaned, List.forall_mem_map]
    intro i hi
    obtain ⟨hi, hkept⟩ := List.mem_filter.1 hi
    rw [Bool.not_eq_true'] at hkept
    have hi' := hfits.instructions i hi
    refine ⟨fun name hname => ?_, nofun, ?_⟩
    · rw [Instruction.cleaned, Action.operands_inbounds] at hname
      refine Function.mem_values_cleaned.2 ?_
      refine (Function.mem_values.1 (hi'.values name hname)).imp_right ?_
      rintro ⟨j, hj, hresult⟩
      refine ⟨j, hj, ?_, hresult⟩
      by_contra hdebug
      exact hvalues i hi hkept j hj (by simpa using hdebug) name hresult hname
    · exact h.fits_action_cleaned hkept hi'.action

/-- A module is well formed after the cleanups if nothing needs what they remove. -/
theorem cleanUp (h : m.WellFormed) (hapart : m.DebugApart) : m.cleanUp.WellFormed := by
  refine ⟨h.names_cleanUp, ?_, ?_, ?_, ?_, ?_⟩
  · intro f' hf' r hr
    obtain ⟨f, -, -, rfl⟩ := mem_functions_cleanUp.1 hf'
    cases hr
  · intro f' hf' hbody
    obtain ⟨f, hf, -, rfl⟩ := mem_functions_cleanUp.1 hf'
    rw [Function.isDeclaration_cleaned] at hbody
    exact h.fits_cleaned hf hbody (hapart.values f hf)
  · intro l hl r hr
    have hl' : l ∈ m.lists := (List.mem_filter.1 hl).1
    exact contains_cleanUp.2 ⟨h.lists l hl' r hr, .entry hl hr⟩
  · intro node hnode r hr
    obtain ⟨e, he, rfl⟩ := List.mem_map.1 hnode
    obtain ⟨he, hstays⟩ := mem_entries_cleanUp.1 he
    refine contains_cleanUp.2 ⟨h.references _ (List.mem_map_of_mem he) r hr, hstays.step ?_⟩
    rw [NodeTable.successors, SortedMap.get?_eq_some_iff.2 he]
    exact hr
  · intro node hnode name hname
    obtain ⟨e, he, rfl⟩ := List.mem_map.1 hnode
    obtain ⟨he, hstays⟩ := mem_entries_cleanUp.1 he
    obtain ⟨g, hg⟩ := Option.isSome_iff_exists.1
      (h.targets _ (List.mem_map_of_mem he) name hname)
    rw [h.function?_cleanUp hg (hapart.targets e he hstays name hname g hg)]
    rfl

/-- A module that is well formed after the cleanups does not need what they remove. -/
theorem debugApart (h : m.WellFormed) (hclean : m.cleanUp.WellFormed) : m.DebugApart := by
  constructor
  · intro f hf i hi hkept j hj hdebug name hname hused
    have hstays := Function.isDebugStub_of_mem hi
    have hbody : f.isDeclaration = false := by
      by_contra hbody
      rw [Function.instructions_declaration (by simpa using hbody)] at hi
      exact List.not_mem_nil hi
    have hmem : f.cleaned ∈ m.cleanUp.functions := mem_functions_cleanUp.2 ⟨f, hf, hstays, rfl⟩
    have hfits := hclean.fits f.cleaned hmem (by rwa [Function.isDeclaration_cleaned])
    have hcleaned : i.cleaned ∈ f.cleaned.instructions := by
      rw [Function.instructions_cleaned]
      exact List.mem_map_of_mem (List.mem_filter.2 ⟨hi, by rw [hkept]; rfl⟩)
    have hvalue : name ∈ f.cleaned.values := (hfits.instructions _ hcleaned).values name (by
      rwa [Instruction.cleaned, Action.operands_inbounds])
    -- so the name is that of a parameter or of another instruction, too
    have hvalues := (h.fits f hf hbody).values
    obtain ⟨p, hp, hpname⟩ | ⟨k, hk, hkept', hkname⟩ := Function.mem_values_cleaned.1 hvalue
    · refine (List.nodup_append.1 hvalues).2.2 name ?_ name ?_ rfl
      · exact List.mem_filterMap.2 ⟨p, hp, hpname⟩
      · exact List.mem_filterMap.2 ⟨j, hj, hname⟩
    · rw [Function.assigned_once hvalues hk hj hkname hname, hdebug] at hkept'
      cases hkept'
  · intro e he hstays name hname g hg
    have hnode : e.2.node ∈ m.cleanUp.nodes.nodes :=
      List.mem_map_of_mem (mem_entries_cleanUp.2 ⟨he, hstays⟩)
    obtain ⟨g', hg'⟩ := Option.isSome_iff_exists.1 (hclean.targets _ hnode name hname)
    obtain ⟨hmem', hname'⟩ := function?_mem hg'
    obtain ⟨f, hf, hkept, rfl⟩ := mem_functions_cleanUp.1 hmem'
    obtain ⟨hmem, rfl⟩ := function?_mem hg
    rwa [← List.inj_on_of_nodup_map h.names hf hmem hname']

end WellFormed

/-! ## Optimization -/

/-- When optimization ends without an error, the module that it returns has no defects iff
    nothing that stays of what the passes leave needs what is there for debuggers. -/
theorem optimize_defects_iff {level : Int} {m' : Module} (h : m.optimize level = (.ok (), m')) :
    m'.defects = [] ↔ (m.passes level.toNat false).DebugApart := by
  obtain ⟨hwell, hresult⟩ := optimize_eq_ok h
  have hpasses := hwell.passes level.toNat false
  rw [hresult, defects_eq_nil_iff]
  exact ⟨hpasses.debugApart, hpasses.cleanUp⟩

end Module

/-- A module with a mark for debuggers, which a node that is not for them names too. -/
def markedModule : Module where
  name := "marked"
  functions :=
    [.declaration "llvm.dbg.label" .void [.i32],
      { name := "f", linkage := .external, returnType := .void, parameters := []
        blocks := [⟨"entry",
          [⟨none, .call .void "llvm.dbg.label" [(.i32, .int 1)], false, none⟩,
            ⟨none, .ret none, false, none⟩]⟩] }]
  lists := [⟨"keep", [⟨0⟩]⟩]
  nodes := .ofList [(⟨0⟩, ⟨false, .tuple [.function "llvm.dbg.label"]⟩)]

/-- It has no defects, and after optimization it has one. -/
theorem optimize_defects_iff_marked : markedModule.defects = [] ∧
    (markedModule.optimize 0).1 = .ok () ∧ (markedModule.optimize 0).2.defects ≠ [] ∧
    ¬(markedModule.passes 0 false).DebugApart := by
  have hok : (markedModule.optimize 0).1 = .ok () := by decide +kernel
  have hdefects : (markedModule.optimize 0).2.defects ≠ [] := by decide +kernel
  have hreturns : markedModule.optimize 0 = (.ok (), (markedModule.optimize 0).2) :=
    Prod.ext hok rfl
  have hiff := Module.optimize_defects_iff hreturns
  exact ⟨by decide +kernel, hok, hdefects, fun hapart => hdefects (hiff.2 hapart)⟩

end Offload.Device
