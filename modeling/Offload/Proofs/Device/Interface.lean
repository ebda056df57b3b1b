import Offload.Proofs.Device.Link
import Offload.Proofs.Device.Simulation
import Offload.Proofs.Device.WellFormed

/-!
# What can be wrong with lowered code

Whether the functions that a program calls are there, and whether calls and returns agree with
their signatures, is checked for device code only. All other departures from well-formedness are
excluded when a valid program is lowered (`lowerModule_depicts`): the functions are what their
operations become, so their values are numbered one after the other and defined before they are
used, their only blocks end with their only terminators, and the nodes of the module are those that
make functions kernels.
-/

namespace Offload.Device

open Context

/-- A departure that has to do with the names and the signatures of functions, or with values that
    are of no type. -/
def Defect.isOfSignature : Defect → Bool
  | repeatedFunction _ | voidValue .. | unknownCallee .. | returns .. | argumentCount ..
  | callType .. => true
  | _ => false

/-- All departures have to do with signatures. -/
def OfSignature (ds : List Defect) : Prop := ∀ d ∈ ds, d.isOfSignature

namespace OfSignature

variable {ds ds' : List Defect} {d : Defect} {condition : Bool}

theorem nil : OfSignature [] := nofun

theorem append (h : OfSignature ds) (h' : OfSignature ds') : OfSignature (ds ++ ds') :=
  List.forall_mem_append.2 ⟨h, h'⟩

theorem of_eq_nil (h : ds = []) : OfSignature ds := h ▸ nil

theorem when (h : condition = true → d.isOfSignature) : OfSignature (Defect.when condition d) := by
  cases condition with
  | false => exact nil
  | true => exact List.forall_mem_singleton.2 (h rfl)

theorem flatMap {α : Type} {as : List α} {f : α → List Defect} (h : ∀ a ∈ as, OfSignature (f a)) :
    OfSignature (as.flatMap f) := fun d hd => by
  obtain ⟨a, ha, hd⟩ := List.mem_flatMap.1 hd
  exact h a ha d hd

end OfSignature

/-! ## Functions -/

variable {ctx : Context} {σ : ValueRef → Operand} {o op : OpRef} {m m' : Module} {f : Function}

theorem Becomes.debug {code : List Instruction} (h : Becomes ctx σ o code) :
    ∀ i ∈ code, i.debug = none := by
  cases h with
  | const => exact fun i hi => absurd hi List.not_mem_nil
  | perform | define => exact List.forall_mem_singleton.2 rfl
  | widen => exact List.forall_mem_cons.2 ⟨rfl, List.forall_mem_singleton.2 rfl⟩

/-- Values that are named once can only be of no type. -/
theorem ofSignature_resultDefects {seen : List String} {is : List Instruction}
    (h : Distinct seen (is.filterMap (·.result))) : OfSignature (f.resultDefects seen is) := by
  induction is generalizing seen with
  | nil => exact .nil
  | cons i is ih =>
    rw [Function.resultDefects]
    cases hname : i.result with
    | none =>
      rw [List.filterMap_cons_none hname] at h
      exact ih h
    | some name =>
      rw [List.filterMap_cons_some hname, distinct_cons] at h
      refine .append (.append (.when fun _ => rfl) (.when fun hseen => ?_)) (ih h.2)
      exact absurd (List.contains_iff_mem.1 hseen) h.1

/-- A return, or what is no terminator, has no targets. -/
theorem ofSignature_actionDefects {a : Action}
    (h : a.isTerminator = false ∨ ∃ value, a = .ret value) :
    OfSignature (m.actionDefects f a) := by
  obtain h | ⟨value, rfl⟩ := h
  · cases a with
    | ret | jump | branch => cases h
    | call returnType callee args =>
      rw [Module.actionDefects]
      split
      · exact List.forall_mem_singleton.2 rfl
      · exact .append (.when fun _ => rfl) (.when fun _ => rfl)
    | _ => exact .nil
  · exact .when fun _ => rfl

theorem ofSignature_instructionDefects {i : Instruction}
    (hvalues : ∀ name, .value name ∈ i.action.operands → name ∈ f.values) (hdebug : i.debug = none)
    (ha : i.action.isTerminator = false ∨ ∃ value, i.action = .ret value) :
    OfSignature (m.instructionDefects f i) := by
  refine .append (.append (.flatMap fun name hname => .when fun hunknown => ?_) ?_)
    (ofSignature_actionDefects ha)
  · obtain ⟨p, hp, hvalue⟩ := List.mem_filterMap.1 hname
    cases p with
    | value name' =>
      cases hvalue
      rw [List.contains_iff_mem.2 (hvalues name hp)] at hunknown
      cases hunknown
    | _ => cases hvalue
  · rw [hdebug]
    exact .nil

/-- Terminators but the last instruction are missing. -/
theorem ofSignature_bodyDefects {label : String} {is : List Instruction}
    (hinner : ∀ i ∈ is.dropLast, i.action.isTerminator = false)
    (his : ∀ i ∈ is, OfSignature (m.instructionDefects f i)) :
    OfSignature (m.bodyDefects f label is) := by
  induction is with
  | nil => exact .nil
  | cons i is ih =>
    obtain ⟨hi, his⟩ := List.forall_mem_cons.1 his
    have hrest : ∀ j ∈ is.dropLast, j.action.isTerminator = false := fun j hj => hinner j <| by
      rw [List.dropLast_cons_of_ne_nil (List.ne_nil_of_mem (List.mem_of_mem_dropLast hj))]
      exact List.mem_cons_of_mem i hj
    refine .append (.append (.when fun hearly => ?_) hi) (ih hrest his)
    -- an early terminator has others after it
    rw [Bool.and_eq_true, Bool.not_eq_true', List.isEmpty_eq_false_iff] at hearly
    obtain ⟨hearly, hnil⟩ := hearly
    have hmem : i ∈ (i :: is).dropLast := by
      rw [List.dropLast_cons_of_ne_nil hnil]
      exact List.mem_cons_self
    rw [hinner i hmem] at hearly
    cases hearly

namespace Function.Renders

variable {block : BlockRef} (h : f.Renders ctx block σ)
include h

/-- The values that an instruction takes are defined, and it is what an operation becomes. -/
theorem ofSignature_instruction {i : Instruction} (hi : i ∈ f.instructions) :
    OfSignature (m.instructionDefects f i) := by
  refine ofSignature_instructionDefects (fun name hname => ?_) ?_ ?_
  · obtain ⟨first, rest, hfirst⟩ := List.append_of_mem hi
    obtain hp | ⟨j, hj, hresult⟩ := h.defined first i rest hfirst name hname
    · exact List.mem_append_left _ (List.mem_filterMap.2 hp)
    · refine List.mem_append_right _ (List.mem_filterMap.2 ⟨j, ?_, hresult⟩)
      rw [hfirst]
      exact List.mem_append_left _ hj
  · obtain ⟨codes, hcodes, hblocks⟩ := h.body
    rw [Function.instructions, hblocks, List.flatMap_singleton] at hi
    obtain ⟨code, hcode, hi⟩ := List.mem_flatten.1 hi
    obtain ⟨p, -, hbecomes⟩ := Outcome.exists_of_mem_right hcodes hcode
    exact hbecomes.debug i hi
  · obtain ⟨before, value, hsplit, hbefore⟩ := h.ends
    rw [hsplit] at hi
    obtain hi | hi := List.mem_append.1 hi
    · exact .inl (hbefore i hi)
    · exact .inr ⟨value, List.mem_singleton.1 hi ▸ rfl⟩

/-- What the operations of a block become is well formed but for signatures. -/
theorem ofSignature (hdebug : f.debug = none) : OfSignature (m.functionDefects f) := by
  obtain ⟨codes, -, hblocks⟩ := h.body
  have hinstructions : f.instructions = codes.flatten := by
    rw [Function.instructions, hblocks, List.flatMap_singleton]
  have hdistinct : f.values.Nodup := by
    rw [h.numbers]
    exact List.nodup_range.map Text.toString_injective
  obtain ⟨hparameters, hresults, hnew⟩ := List.nodup_append.1 hdistinct
  have hnamed : ∀ p ∈ f.parameters, p.name ≠ none := fun p hp hnone => by
    obtain ⟨v, -, himage⟩ := Outcome.exists_of_mem_right h.parameters hp
    rw [hnone] at himage
    cases himage
  obtain ⟨before, value, hsplit, hbefore⟩ := h.ends
  rw [Module.functionDefects, hdebug]
  -- what is checked of a definition: its remarks, labels, parameters, results and blocks
  split
  · exact .nil
  refine .append .nil (.append (.append (.append ?_ (.of_eq_nil ?_)) ?_) (.flatMap fun b hb => ?_))
  · rw [Function.labels, hblocks]
    exact .nil
  · exact Function.parameterDefects_eq_nil.2 ⟨hnamed, distinct_nil_left.2 hparameters⟩
  · exact ofSignature_resultDefects
      ⟨hresults, fun name hname hseen => hnew name hseen name hname rfl⟩
  · rw [hblocks] at hb
    obtain rfl := List.mem_singleton.1 hb
    rw [← hinstructions]
    refine .append (.when fun hopen => ?_)
      (ofSignature_bodyDefects ?_ fun i hi => h.ofSignature_instruction hi)
    · rw [hsplit, List.getLast?_concat] at hopen
      cases hopen
    · rw [hsplit, List.dropLast_concat]
      exact hbefore

end Function.Renders

/-! ## Modules -/

namespace Module

/-- Lists have nodes that are there, and nodes make functions kernels that are there. -/
structure Annotated (m : Module) : Prop where
  lists : ∀ l ∈ m.lists, ∀ r ∈ l.nodes, m.nodes.contains r
  nodes : ∀ node ∈ m.nodes.nodes, ∃ f ∈ m.functions, node = kernelNode f.name

theorem annotated_new (name : String) : ({ name } : Module).Annotated := ⟨nofun, nofun⟩

/-- More functions do no harm. -/
theorem Annotated.congr (h : m.Annotated) (hfunctions : ∀ f ∈ m.functions, f ∈ m'.functions)
    (hnodes : m'.nodes = m.nodes) (hlists : m'.lists = m.lists) : m'.Annotated := by
  refine ⟨hlists ▸ hnodes ▸ h.lists, fun node hnode => ?_⟩
  obtain ⟨f, hf, rfl⟩ := h.nodes node (hnodes ▸ hnode)
  exact ⟨f, hfunctions f hf, rfl⟩

theorem Annotated.add {kernel : Bool} (h : m.Annotated) (hadd : m.add f kernel = .ok m') :
    m'.Annotated := by
  have hmem : ∀ g ∈ m.functions, g ∈ m.functions ++ [f] := fun g hg => List.mem_append_left _ hg
  rw [Module.add] at hadd
  cases kernel with
  | false =>
    obtain rfl := Except.ok.inj hadd
    exact h.congr hmem rfl rfl
  | true =>
    simp only [if_true, annotateKernel, addNode, Outcome.bind_eq_ok, Outcome.pure_eq_ok] at hadd
    obtain ⟨⟨_, s⟩, ⟨_, -, heq⟩, rfl⟩ := hadd
    cases heq
    refine ⟨fun l hl r hr => SortedMap.contains_set.2 ?_, fun node hnode => ?_⟩
    · obtain hr | ⟨k, hk, hr⟩ := mem_appendToList hl hr
      · exact .inl (List.mem_singleton.1 hr)
      · exact .inr (h.lists k hk r hr)
    · obtain ⟨e, he, rfl⟩ := List.mem_map.1 hnode
      obtain rfl | ⟨he, -⟩ := SortedMap.mem_set.1 he
      · exact ⟨f, List.mem_append_right _ (List.mem_singleton_self f), rfl⟩
      · obtain ⟨g, hg, hnode⟩ := h.nodes _ (List.mem_map_of_mem he)
        exact ⟨g, hmem g hg, hnode⟩

theorem Annotated.metadataDefects (h : m.Annotated) : m.metadataDefects = [] := by
  refine metadataDefects_eq_nil.2 ⟨h.lists, fun node hnode => ?_⟩
  obtain ⟨f, hf, rfl⟩ := h.nodes node hnode
  refine ⟨nofun, List.forall_mem_singleton.2 ?_⟩
  exact List.find?_isSome.2 ⟨f, hf, decide_eq_true rfl⟩

end Module

variable {root : OpRef} {findings : Findings} {name : String} {ops : List OpRef}
  {i needed : List Function}

theorem lowerFunctions_spec (hm : m.Annotated)
    (hrun : (lowerFunctions ctx m i ops).run = .ok (.ok (m', needed))) :
    m'.Annotated ∧ ∃ fs, m'.functions = m.functions ++ fs ∧
      List.Forall₂ (fun o f => ∃ needed, Lowers ctx o f needed) ops fs := by
  induction ops generalizing m i with
  | nil =>
    cases Lowered.pure_eq_ok.1 hrun
    exact ⟨hm, [], (List.append_nil _).symm, .nil⟩
  | cons o ops ih =>
    obtain ⟨f, needed, kernel, next, hf, -, hadd, hrest⟩ := lowerFunctions_cons hrun
    obtain ⟨hm', fs, hfs, hall⟩ := ih (hm.add hadd) hrest
    refine ⟨hm', f :: fs, ?_, .cons ⟨needed, hf⟩ hall⟩
    rw [hfs, Module.functions_add hadd, List.append_assoc]
    rfl

theorem Depicts.ofSignature (h : Depicts ctx o f) (hdebug : f.debug = none) :
    OfSignature (m.functionDefects f) := by
  obtain ⟨r, -, ⟨-, hnone⟩ | ⟨block, σ, -, hrenders⟩⟩ := h.body
  · rw [Module.functionDefects, hdebug, if_pos (by rw [Function.isDeclaration, hnone]; rfl)]
    exact .nil
  · exact hrenders.ofSignature hdebug

/-- In a valid program, functions are what their operations become. -/
theorem forall₂_depicts (hc : ctx.Coherent)
    (hvalid : ∀ o, ctx.Within o root → ctx.Terminated o ∧ ctx.Shaped o) (hop : ctx.Within op root)
    {fs : List Function} (hlowers : List.Forall₂ (fun o f => ∃ needed, Lowers ctx o f needed)
      (ctx.childrenOf op) fs) :
    List.Forall₂ (fun o f => Depicts ctx o f ∧ f.debug = none) (ctx.childrenOf op) fs := by
  refine (Position.forall₂_mem hlowers).imp fun o f h => ?_
  obtain ⟨ho, -, needed, hf⟩ := h
  have hw : ctx.Within o root := .head (hc.mem_childrenOf.1 ho) hop
  refine ⟨hf.depicts hc (hvalid o hw).2 (hvalid o hw).1 fun p hp => ?_, hf.debug⟩
  exact (hvalid p (.head (hc.mem_childrenOf.1 hp) hw)).2

/-- The functions of a device module of a valid program are what its operations become: in each
    with a body there is an image of every value, and the only block has what the operations become
    on these images, one after the other. After them come declarations of intrinsics. All that can
    be wrong with the module has to do with the names and signatures of functions, or with values
    that are of no type. -/
theorem lowerModule_depicts (hc : ctx.Coherent) (hfindings : ctx.findings root = .ok findings)
    (hvalid : findings.isEmpty) (hop : ctx.Within op root) (hkind : ctx.kindOf op = .gpuModule)
    (hrun : (lowerModule ctx op name).run = .ok (.ok m)) :
    (∃ fs declared, m.functions = fs ++ declared ∧
      List.Forall₂ (Depicts ctx) (ctx.childrenOf op) fs ∧
        ∀ f ∈ declared, f.isDeclaration = true) ∧ ∀ d ∈ m.defects, d.isOfSignature := by
  obtain ⟨hroot, hvalid⟩ := hc.of_findings hfindings hvalid
  have hfits := (hvalid op hop).2.fits _ (by rw [hkind]; rfl)
  obtain ⟨b, row, hb, hrow, hchildren⟩ :=
    hfits.childrenOf_eq hc (hc.hasOp_of_within' hop hroot) rfl
  obtain ⟨b', row', m', needed, hb', hrow', hfunctions, rfl⟩ := exists_of_lowerModule hrun
  obtain rfl := Except.ok.inj (hb.symm.trans hb')
  obtain rfl := Except.ok.inj (hrow.symm.trans hrow')
  obtain ⟨hm', fs, hfs, hlowers⟩ := lowerFunctions_spec (Module.annotated_new name) hfunctions
  obtain ⟨⟨declared, hdeclared, hplain⟩, hnodes, hlists⟩ := declare_all needed m'
  have hm := hm'.congr (fun f hf => hdeclared ▸ List.mem_append_left _ hf) hnodes hlists
  rw [← hchildren] at hlowers
  have hdepicts := forall₂_depicts hc hvalid hop hlowers
  have hsplit := hdeclared.trans (congrArg (· ++ declared) hfs)
  refine ⟨⟨fs, declared, hsplit, hdepicts.imp fun _ _ h => h.1, fun f hf => ?_⟩, ?_⟩
  · obtain ⟨_, _, _, rfl⟩ := hplain f hf
    rfl
  -- names of functions, then the functions themselves, then the metadata
  refine OfSignature.append (.append (fun d hd => ?_) (.flatMap fun f hf => ?_))
    (.of_eq_nil hm.metadataDefects)
  · obtain ⟨name, -, rfl⟩ := List.mem_map.1 hd
    rfl
  · rw [hsplit] at hf
    obtain hf | hf := List.mem_append.1 hf
    · obtain ⟨o, -, hdepicts, hdebug⟩ := Outcome.exists_of_mem_right hdepicts hf
      exact hdepicts.ofSignature hdebug
    · obtain ⟨_, _, _, rfl⟩ := hplain f hf
      exact .nil

/-- A kernel that stores twice the number of its thread. -/
def threadKernel : String :=
  "gpu.module @m \x7b
  func.func @k \x7bgpu.kernel = unit, type = func.fn(core.nil, core.ptr)\x7d \x7b
    ^bb0(%p: core.ptr):
      %t = gpu.thread_id \x7bdimension = @x\x7d : core.i64
      %c = arith.const \x7bvalue = 2\x7d : core.i64
      %r = arith.mul %t, %c : core.i64
      mem.store %r, %p
      func.return
  \x7d
\x7d
"

/-- The device code: the register of 32 bits is widened, and the constant is a literal. -/
def threadCode : Module where
  name := "m"
  functions :=
    [{  name := "k"
        linkage := .external
        returnType := .void
        parameters := [⟨.ptr, some "0"⟩]
        blocks :=
          [⟨"entry",
            [{ result := some "1", action := .call .i32 "llvm.nvvm.read.ptx.sreg.tid.x" [] },
              { result := some "2", action := .convert .zext .i32 (.value "1") .i64 },
              { result := some "3", action := .binary .mul .i64 (.value "2") (.int 2) },
              { result := none, action := .store .i64 (.value "3") (.value "0") },
              { result := none, action := .ret none }]⟩] },
      .declaration "llvm.nvvm.read.ptx.sreg.tid.x" .i32 []]
  lists := [⟨annotations, [⟨0⟩]⟩]
  nodes := .ofList [(⟨0⟩, ⟨false, Module.kernelNode "k"⟩)]

set_option maxRecDepth 100000 in
theorem lowerModule_depicts_thread : ∃ root ctx findings,
    Context.empty.read "f" threadKernel = (.ok root, ctx) ∧ ctx.Coherent ∧
      ctx.findings root = .ok findings ∧ findings.isEmpty ∧ ctx.Within root root ∧
      ctx.kindOf root = .gpuModule ∧ (lowerModule ctx root "m").run = .ok (.ok threadCode) ∧
      (∃ fs declared, threadCode.functions = fs ++ declared ∧
        List.Forall₂ (Depicts ctx) (ctx.childrenOf root) fs ∧
          ∀ f ∈ declared, f.isDeclaration = true) ∧ ∀ d ∈ threadCode.defects, d.isOfSignature := by
  have hreads : Build.readsAs "f" threadKernel fun root ctx =>
      decide (ctx.kindOf root = .gpuModule ∧
        (lowerModule ctx root "m").run = .ok (.ok threadCode)) :=
    Build.readsAs_ofList (by decide +kernel)
  obtain ⟨root, ctx, findings, hread, hfindings, hvalid, htest⟩ := Build.exists_of_readsAs hreads
  obtain ⟨hkind, hlower⟩ := of_decide_eq_true htest
  have hc := (Build.read_built hread).1.coherent
  exact ⟨root, ctx, findings, hread, hc, hfindings, hvalid, .refl root, hkind, hlower,
    lowerModule_depicts hc hfindings hvalid (.refl root) hkind hlower⟩

end Offload.Device
