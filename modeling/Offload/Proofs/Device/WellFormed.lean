import Mathlib.Data.List.Nodup
import Offload.Device.Defect
import Offload.Proofs.Device.Rewriting

/-!
# Well-formedness as a condition

`Module.defects` computes a report. Here well-formedness is said without one: what a
module refers to exists, what it names is named once, and every block ends with its
only terminator (`Module.WellFormed`). A module has this property iff nothing is
reported (`Module.defects_eq_nil_iff`).

What a function needs of the module that it stands in are the signatures of the
functions that it calls, and the numbers of the nodes that it refers to. So a
function fits as well into every module that has these, under whatever names and
numbers (`Function.Fits.relocate`).
-/

namespace Offload.Device

/-! ## The condition -/

/-- A block ends with its only terminator. -/
def Block.Closed (b : Block) : Prop :=
  ∃ body last, b.instructions = body ++ [last] ∧ last.action.isTerminator = true ∧
    ∀ i ∈ body, i.action.isTerminator = false

/-- What an action refers to outside its operands is there, and used as it says. -/
def Action.Fits (m : Module) (f : Function) : Action → Prop
  | .ret value => (value.map Prod.fst).getD .void = f.returnType
  | .jump target => target ∈ f.labels
  | .branch _ thenTarget elseTarget => thenTarget ∈ f.labels ∧ elseTarget ∈ f.labels
  | .call returnType callee args => ∃ g, m.function? callee = some g ∧
    g.parameters.length = args.length ∧ g.returnType = returnType
  | _ => True

/-- What an instruction refers to is there. -/
structure Instruction.Fits (m : Module) (f : Function) (i : Instruction) : Prop where
  values : ∀ name, .value name ∈ i.action.operands → name ∈ f.values
  debug : ∀ r ∈ i.debug, m.nodes.contains r
  action : i.action.Fits m f

/-- The blocks of a function are as they should be, in a module. -/
structure Function.Fits (m : Module) (f : Function) : Prop where
  labels : f.labels.Nodup
  named : ∀ p ∈ f.parameters, p.name ≠ none
  values : f.values.Nodup
  valued : ∀ i ∈ f.instructions, ∀ name ∈ i.result, i.action.resultType ≠ .void
  closed : ∀ b ∈ f.blocks, b.Closed
  instructions : ∀ i ∈ f.instructions, i.Fits m f

/-- Every name and every number in a module means exactly one thing. -/
structure Module.WellFormed (m : Module) : Prop where
  names : (m.functions.map (·.name)).Nodup
  debug : ∀ f ∈ m.functions, ∀ r ∈ f.debug, m.nodes.contains r
  fits : ∀ f ∈ m.functions, f.isDeclaration = false → f.Fits m
  lists : ∀ l ∈ m.lists, ∀ r ∈ l.nodes, m.nodes.contains r
  references : ∀ node ∈ m.nodes.nodes, ∀ r ∈ node.references, m.nodes.contains r
  targets : ∀ node ∈ m.nodes.nodes, ∀ name ∈ node.functions, (m.function? name).isSome

/-- Where names are distinct, a function is found by its name. -/
theorem find?_name {fs : List Function} (h : (fs.map (·.name)).Nodup) {f : Function}
    (hf : f ∈ fs) : fs.find? (·.name = f.name) = some f := by
  have hfound : (fs.find? (·.name = f.name)).isSome :=
    List.find?_isSome.2 ⟨f, hf, decide_eq_true rfl⟩
  obtain ⟨g, hg⟩ := Option.isSome_iff_exists.1 hfound
  have hname : g.name = f.name := by simpa using List.find?_some hg
  rw [hg, List.inj_on_of_nodup_map h (List.mem_of_find?_eq_some hg) hf hname]

theorem Module.function?_eq_some {m : Module} (h : (m.functions.map (·.name)).Nodup)
    {name : String} {f : Function} :
    m.function? name = some f ↔ f ∈ m.functions ∧ f.name = name := by
  refine ⟨function?_mem, ?_⟩
  rintro ⟨hf, rfl⟩
  exact find?_name h hf

/-! ## The report -/

@[simp]
theorem Defect.when_eq_nil {condition : Bool} {d : Defect} :
    Defect.when condition d = [] ↔ condition = false := by
  cases condition <;> simp [Defect.when]

/-- The names of a list are distinct from each other, and from those seen before. -/
def Distinct (seen names : List String) : Prop := names.Nodup ∧ ∀ name ∈ names, name ∉ seen

theorem distinct_nil_left {names : List String} : Distinct [] names ↔ names.Nodup := by
  simp [Distinct]

theorem distinct_cons {seen names : List String} {name : String} :
    Distinct seen (name :: names) ↔ name ∉ seen ∧ Distinct (name :: seen) names := by
  simp only [Distinct, List.nodup_cons]
  constructor
  · rintro ⟨⟨hname, hnodup⟩, hnew⟩
    obtain ⟨hfirst, hnew⟩ := List.forall_mem_cons.1 hnew
    refine ⟨hfirst, hnodup, fun n hn => List.not_mem_cons_of_ne_of_not_mem ?_ (hnew n hn)⟩
    rintro rfl
    exact hname hn
  · rintro ⟨hfirst, hnodup, hnew⟩
    refine ⟨⟨fun hname => hnew name hname List.mem_cons_self, hnodup⟩,
      List.forall_mem_cons.2 ⟨hfirst, fun n hn => ?_⟩⟩
    exact List.not_mem_of_not_mem_cons (hnew n hn)

theorem repeats_eq_nil {seen names : List String} :
    repeats seen names = [] ↔ Distinct seen names := by
  induction names generalizing seen with
  | nil => simp [repeats, Distinct]
  | cons name names ih =>
    rw [repeats, List.append_eq_nil_iff, ih, distinct_cons]
    simp

namespace Function

variable {f : Function} {seen : List String}

theorem parameterDefects_eq_nil {ps : List Parameter} :
    f.parameterDefects seen ps = [] ↔
      (∀ p ∈ ps, p.name ≠ none) ∧ Distinct seen (ps.filterMap (·.name)) := by
  induction ps generalizing seen with
  | nil => simp [parameterDefects, Distinct]
  | cons p ps ih =>
    rw [parameterDefects, List.forall_mem_cons]
    cases hname : p.name with
    | none => simp
    | some name =>
      simp only [List.append_eq_nil_iff, Defect.when_eq_nil, ih]
      rw [List.filterMap_cons_some hname, distinct_cons]
      simp [and_left_comm]

theorem resultDefects_eq_nil {is : List Instruction} :
    f.resultDefects seen is = [] ↔ (∀ i ∈ is, ∀ name ∈ i.result, i.action.resultType ≠ .void) ∧
      Distinct seen (is.filterMap (·.result)) := by
  induction is generalizing seen with
  | nil => simp [resultDefects, Distinct]
  | cons i is ih =>
    rw [resultDefects, List.forall_mem_cons]
    cases hname : i.result with
    | none => simp [hname, ih]
    | some name =>
      simp only [List.append_eq_nil_iff, Defect.when_eq_nil, ih]
      rw [List.filterMap_cons_some hname, distinct_cons]
      simp [and_left_comm, and_assoc]

theorem targetDefects_eq_nil {target : String} :
    f.targetDefects target = [] ↔ target ∈ f.labels := by
  simp [targetDefects]

end Function

namespace Module

variable {m : Module} {f : Function}

theorem nodeDefects_eq_nil {r : NodeRef} : m.nodeDefects r = [] ↔ m.nodes.contains r = true := by
  simp [nodeDefects]

theorem actionDefects_eq_nil {a : Action} : m.actionDefects f a = [] ↔ a.Fits m f := by
  cases a with
  | ret value => simp [actionDefects, Action.Fits]
  | jump target => exact Function.targetDefects_eq_nil
  | branch condition thenTarget elseTarget =>
    rw [actionDefects, List.append_eq_nil_iff, Function.targetDefects_eq_nil,
      Function.targetDefects_eq_nil]
    rfl
  | call returnType callee args =>
    rw [actionDefects, Action.Fits]
    cases m.function? callee <;> simp
  | _ => simp [actionDefects, Action.Fits]

theorem instructionDefects_eq_nil {i : Instruction} :
    m.instructionDefects f i = [] ↔ i.Fits m f := by
  simp only [instructionDefects, List.append_eq_nil_iff, List.flatMap_eq_nil_iff,
    Defect.when_eq_nil, nodeDefects_eq_nil, actionDefects_eq_nil, List.mem_filterMap,
    Bool.not_eq_false', List.contains_iff_mem, Option.mem_toList]
  constructor
  · rintro ⟨⟨hvalues, hdebug⟩, haction⟩
    exact ⟨fun name hm => hvalues name ⟨_, hm, rfl⟩, hdebug, haction⟩
  · rintro ⟨hvalues, hdebug, haction⟩
    refine ⟨⟨?_, hdebug⟩, haction⟩
    rintro name ⟨o, ho, hname⟩
    cases o with
    | value n =>
      cases hname
      exact hvalues name ho
    | _ => cases hname

theorem bodyDefects_eq_nil {label : String} {is : List Instruction} :
    m.bodyDefects f label is = [] ↔
      (∀ i ∈ is.dropLast, i.action.isTerminator = false) ∧ ∀ i ∈ is, i.Fits m f := by
  induction is with
  | nil => simp [bodyDefects]
  | cons i is ih =>
    rw [bodyDefects, List.append_eq_nil_iff, List.append_eq_nil_iff, ih,
      instructionDefects_eq_nil, Defect.when_eq_nil, List.forall_mem_cons]
    cases is with
    | nil => simp
    | cons j js =>
      rw [List.dropLast_cons_of_ne_nil (List.cons_ne_nil j js)]
      simp only [List.isEmpty_cons, Bool.not_false, Bool.and_true, List.forall_mem_cons]
      tauto

theorem blockDefects_eq_nil {b : Block} :
    m.blockDefects f b = [] ↔ b.Closed ∧ ∀ i ∈ b.instructions, i.Fits m f := by
  rw [blockDefects, List.append_eq_nil_iff, Defect.when_eq_nil, bodyDefects_eq_nil,
    Bool.not_eq_false', Option.any_eq_true, ← and_assoc]
  refine and_congr_left fun _ => ?_
  constructor
  · rintro ⟨⟨last, hlast, hterminator⟩, hinner⟩
    have hsplit := List.dropLast_append_getLast? last hlast
    exact ⟨b.instructions.dropLast, last, hsplit.symm, hterminator, hinner⟩
  · rintro ⟨body, last, hsplit, hterminator, hinner⟩
    rw [hsplit, List.dropLast_concat]
    exact ⟨⟨last, by simp, hterminator⟩, hinner⟩

theorem functionDefects_eq_nil : m.functionDefects f = [] ↔
    (∀ r ∈ f.debug, m.nodes.contains r) ∧ (f.isDeclaration = false → f.Fits m) := by
  rw [functionDefects, List.append_eq_nil_iff, List.flatMap_eq_nil_iff]
  refine and_congr (by simp [nodeDefects_eq_nil]) ?_
  cases hbody : f.isDeclaration with
  | true => simp
  | false =>
    simp only [Bool.false_eq_true, if_false, List.append_eq_nil_iff, Defect.when_eq_nil,
      Bool.not_eq_false', List.isEmpty_iff, repeats_eq_nil, Function.parameterDefects_eq_nil,
      Function.resultDefects_eq_nil, List.flatMap_eq_nil_iff, blockDefects_eq_nil, forall_const,
      distinct_nil_left]
    constructor
    · rintro ⟨⟨⟨hlabels, hnamed, hparams⟩, hvalued, hresults, hnew⟩, hblocks⟩
      refine ⟨hlabels, hnamed, ?_, hvalued, fun b hb => (hblocks b hb).1, fun i hi => ?_⟩
      · refine List.nodup_append.2 ⟨hparams, hresults, ?_⟩
        rintro name hname _ hresult rfl
        exact hnew name hresult hname
      · obtain ⟨b, hb, hi⟩ := List.mem_flatMap.1 hi
        exact (hblocks b hb).2 i hi
    · intro h
      obtain ⟨hparams, hresults, hdistinct⟩ := List.nodup_append.1 h.values
      refine ⟨⟨⟨h.labels, h.named, hparams⟩, h.valued, hresults, ?_⟩, ?_⟩
      · intro name hresult hname
        exact hdistinct name hname name hresult rfl
      · intro b hb
        exact ⟨h.closed b hb, fun i hi => h.instructions i (List.mem_flatMap.2 ⟨b, hb, hi⟩)⟩

theorem metadataDefects_eq_nil : m.metadataDefects = [] ↔
    (∀ l ∈ m.lists, ∀ r ∈ l.nodes, m.nodes.contains r) ∧ ∀ node ∈ m.nodes.nodes,
      (∀ r ∈ node.references, m.nodes.contains r) ∧
        ∀ name ∈ node.functions, (m.function? name).isSome := by
  simp [metadataDefects, nodeDefects_eq_nil, Option.isNone_eq_false_iff]

/-- Nothing is reported iff the module is well formed. -/
theorem defects_eq_nil_iff : m.defects = [] ↔ m.WellFormed := by
  rw [defects, List.append_eq_nil_iff, List.append_eq_nil_iff, List.map_eq_nil_iff,
    repeats_eq_nil, distinct_nil_left, List.flatMap_eq_nil_iff, metadataDefects_eq_nil]
  simp only [functionDefects_eq_nil]
  constructor
  · rintro ⟨⟨hnames, hfunctions⟩, hlists, hnodes⟩
    exact ⟨hnames, fun f hf => (hfunctions f hf).1, fun f hf => (hfunctions f hf).2, hlists,
      fun node hnode => (hnodes node hnode).1, fun node hnode => (hnodes node hnode).2⟩
  · intro h
    exact ⟨⟨h.names, fun f hf => ⟨h.debug f hf, h.fits f hf⟩⟩, h.lists,
      fun node hnode => ⟨h.references node hnode, h.targets node hnode⟩⟩

end Module

/-! ## The same function in another module -/

section Relocation

variable {m m' : Module} {f : Function} {ρ : String → String} {δ : NodeRef → NodeRef}

/-- What a function calls in one module is there in another, under its new name. -/
def Function.Callable (m m' : Module) (ρ : String → String) (f : Function) : Prop :=
  ∀ i ∈ f.instructions, ∀ name ∈ i.action.callee?, ∀ g, m.function? name = some g →
    ∃ g', m'.function? (ρ name) = some g' ∧ g.sameSignature g'

theorem Function.length_parameters {f g : Function} (h : f.sameSignature g) :
    f.parameters.length = g.parameters.length := by
  simp only [sameSignature, Bool.and_eq_true, decide_eq_true_eq] at h
  simpa [parameterTypes] using congrArg List.length h.2

theorem Function.returnType_eq {f g : Function} (h : f.sameSignature g) :
    f.returnType = g.returnType := by
  simp only [sameSignature, Bool.and_eq_true, decide_eq_true_eq] at h
  exact h.1

@[simp]
theorem Function.labels_relocate : (f.relocate ρ δ).labels = f.labels := by
  simp [labels, relocate, mapInstructions, Function.comp_def]

@[simp]
theorem Function.values_relocate : (f.relocate ρ δ).values = f.values := by
  rw [values, instructions_relocate, List.filterMap_map]
  rfl

theorem Action.Fits.relocate {a : Action} (h : a.Fits m f)
    (hcall : ∀ name ∈ a.callee?, ∀ g, m.function? name = some g →
      ∃ g', m'.function? (ρ name) = some g' ∧ g.sameSignature g') :
    (a.relocate ρ).Fits m' (f.relocate ρ δ) := by
  cases a with
  | call returnType callee args =>
    obtain ⟨g, hg, hlength, htype⟩ := h
    obtain ⟨g', hg', hsame⟩ := hcall callee rfl g hg
    refine ⟨g', hg', ?_, ?_⟩
    · rw [← Function.length_parameters hsame, hlength, List.length_map]
    · rw [← Function.returnType_eq hsame, htype]
  | ret value =>
    cases value <;> exact h
  | jump target =>
    change target ∈ (f.relocate ρ δ).labels
    rwa [Function.labels_relocate]
  | branch condition thenTarget elseTarget =>
    change thenTarget ∈ (f.relocate ρ δ).labels ∧ elseTarget ∈ (f.relocate ρ δ).labels
    rwa [Function.labels_relocate]
  | _ => trivial

/-- A function that fits into a module fits into every other one that has what it
    calls and the nodes that it refers to. -/
theorem Function.Fits.relocate (h : f.Fits m) (hcalls : f.Callable m m' ρ)
    (hnodes : ∀ r, m.nodes.contains r → m'.nodes.contains (δ r)) :
    (f.relocate ρ δ).Fits m' := by
  refine ⟨by simpa using h.labels, h.named, by simpa using h.values, ?_, ?_, ?_⟩
  · rw [instructions_relocate, List.forall_mem_map]
    intro i hi name hname
    rw [Instruction.relocate, Action.resultType_relocate]
    exact h.valued i hi name hname
  · intro b hb
    obtain ⟨c, hc, rfl⟩ := List.mem_map.1 hb
    obtain ⟨body, last, hsplit, hlast, hbody⟩ := h.closed c hc
    refine ⟨body.map (·.relocate ρ δ), last.relocate ρ δ, by simp [hsplit], ?_, ?_⟩
    · simpa [Instruction.relocate] using hlast
    · simpa [Instruction.relocate] using hbody
  · rw [instructions_relocate, List.forall_mem_map]
    intro i hi
    have hfits := h.instructions i hi
    refine ⟨?_, ?_, hfits.action.relocate (hcalls i hi)⟩
    · intro name hname
      rw [Function.values_relocate]
      exact hfits.values name (Action.value_mem_operands_relocate.1 hname)
    · intro r hr
      obtain ⟨s, hs, rfl⟩ := Option.map_eq_some_iff.1 hr
      exact hnodes s (hfits.debug s hs)

/-- A function that fits into a module fits into every other one that has the same
    nodes and what it calls. -/
theorem Function.Fits.mono (h : f.Fits m) (hcalls : f.Callable m m' id)
    (hnodes : ∀ r, m.nodes.contains r → m'.nodes.contains r) : f.Fits m' := by
  have hsame := h.relocate (δ := id) hcalls hnodes
  rwa [Function.relocate_id] at hsame

end Relocation

end Offload.Device
