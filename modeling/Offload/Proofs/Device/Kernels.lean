import Offload.Device.Lowering
import Offload.Proofs.Access
import Offload.Proofs.Device.Annotations
import Offload.Proofs.Device.Lowered
import Offload.Proofs.Device.Lowering

/-!
# Kernels stay kernels

A function of a device module that is marked and has a body becomes a kernel of the device code. It
is one still when the code is complete, whatever library is linked into it and at whatever level it
is optimized; and all other functions with a body are internal then, apart from those that an
annotation of the library makes kernels (`kernels_stay`).
-/

namespace Offload.Device

/-! ## Passes -/

namespace Module

variable {m m' : Module} {r : NodeRef} {function : String}

theorem Follows.refl (m : Module) : m.Follows m := fun f hf hbody => ⟨f, hf, hbody, rfl, rfl⟩

theorem Follows.trans {m'' : Module} (h' : m''.Follows m') (h : m'.Follows m) : m''.Follows m := by
  intro f'' hf'' hbody''
  obtain ⟨f', hf', hbody', hname', hlinkage'⟩ := h' f'' hf'' hbody''
  obtain ⟨f, hf, hbody, hname, hlinkage⟩ := h f' hf' hbody'
  exact ⟨f, hf, hbody, hname.trans hname', hlinkage.trans hlinkage'⟩

/-- A module follows another one and keeps its kernels. -/
structure Keeps (m' m : Module) : Prop where
  follows : m'.Follows m
  launches : ∀ function r, m.Launches function r → m'.Launches function r

theorem Keeps.refl (m : Module) : m.Keeps m := ⟨.refl m, fun _ _ => id⟩

theorem Keeps.trans {m'' : Module} (h' : m''.Keeps m') (h : m'.Keeps m) : m''.Keeps m :=
  ⟨h'.follows.trans h.follows, fun k r hk => h'.launches k r (h.launches k r hk)⟩

theorem keeps_mapFunctions {φ : Function → Function} (hφ : ∀ f ∈ m.functions, f.Shrunk (φ f)) :
    (m.mapFunctions φ).Keeps m := by
  constructor
  · intro f' hf' hbody
    obtain ⟨f, hf, rfl⟩ := List.mem_map.1 hf'
    have h := hφ f hf
    exact ⟨f, hf, h.isDeclaration ▸ hbody, h.name.symm, h.linkage.symm⟩
  · intro k r h
    obtain ⟨f, hf, hname, hbody, hlinkage⟩ := h.defined
    have hs := hφ f hf
    exact ⟨⟨φ f, List.mem_map_of_mem hf, hs.name.trans hname, hs.isDeclaration.trans hbody,
      hs.linkage.trans hlinkage⟩, h.listed, h.node⟩

theorem keeps_sweepFunctionsOnce : m.sweepFunctionsOnce.Keeps m := by
  constructor
  · exact fun f hf hbody => ⟨f, (List.mem_filter.1 hf).1, hbody, rfl, rfl⟩
  · intro k r h
    obtain ⟨f, hf, hname, hbody, hlinkage⟩ := h.defined
    exact ⟨⟨f, List.mem_filter.2 ⟨hf, by simp [hlinkage]⟩, hname, hbody, hlinkage⟩, h.listed, h.node⟩

theorem WellFormed.keeps_passes (h : m.WellFormed) (level : Nat) (small : Bool) :
    (m.passes level small).Keeps m := by
  refine passes_induction (P := (·.Keeps m)) (.refl m) ?_ (fun k hk => ?_) fun k hk => ?_
  · exact keeps_mapFunctions fun f hf => Function.shrunk_of_chain (h.foldConstants_chain hf)
  · exact (keeps_mapFunctions fun f _ =>
      Function.shrunk_of_chain f.sweepInstructions_chain).trans hk
  · exact keeps_sweepFunctionsOnce.trans hk

/-! ## Cleanups -/

theorem isDebugName_annotations : isDebugName annotations = false := by
  simp [isDebugName, annotations]

/-- The list of the annotations is not for debuggers. -/
theorem list?_cleanUp : m.cleanUp.list? annotations = m.list? annotations := by
  rw [list?, list?, lists_cleanUp]
  induction m.lists with
  | nil => rfl
  | cons l ls ih =>
    by_cases hl : l.name = annotations
    · rw [List.filter_cons_of_pos (by simp [hl, isDebugName_annotations]),
        List.find?_cons_of_pos (by simp [hl]), List.find?_cons_of_pos (by simp [hl])]
    · rw [List.find?_cons_of_neg (by simp [hl]), List.filter_cons, ← ih]
      split
      · rw [List.find?_cons_of_neg (by simp [hl])]
      · rfl

/-- The cleanups leave what the list of the annotations leads to. -/
theorem node?_cleanUp (hr : r ∈ m.listed annotations) : m.cleanUp.node? r = m.node? r := by
  rw [node?, node?]
  refine congrArg _ (SortedMap.get?_restrict (List.contains_iff_mem.2 (mem_reachable.2 ?_)))
  obtain ⟨l, hl, hr⟩ := mem_listed.1 hr
  rw [← list?_cleanUp] at hl
  exact .entry (List.mem_of_find?_eq_some hl) hr

theorem keeps_cleanUp : m.cleanUp.Keeps m := by
  constructor
  · intro f' hf' hbody
    obtain ⟨f, hf, -, rfl⟩ := mem_functions_cleanUp.1 hf'
    rw [Function.isDeclaration_cleaned] at hbody
    exact ⟨f, hf, hbody, rfl, rfl⟩
  · intro k r h
    obtain ⟨f, hf, hname, hbody, hlinkage⟩ := h.defined
    refine ⟨⟨f.cleaned, mem_functions_cleanUp.2 ⟨f, hf, ?_, rfl⟩, hname, ?_, hlinkage⟩, ?_, ?_⟩
    · rw [Function.isDebugStub, hbody, Bool.false_and]
    · rw [Function.isDeclaration_cleaned, hbody]
    · rw [listed, list?_cleanUp]
      exact h.listed
    · rw [node?_cleanUp h.listed]
      exact h.node

/-- A module keeps its kernels when it is optimized. -/
theorem keeps_optimize {level : Int} (h : m.optimize level = (.ok (), m')) : m'.Keeps m := by
  obtain ⟨hwell, rfl⟩ := optimize_eq_ok h
  exact keeps_cleanUp.trans (hwell.keeps_passes _ _)

end Module

/-! ## Libraries -/

namespace Module

variable {m m₁ : Module} {file : TextFile} {p : String → Prop} {r : NodeRef} {function : String}

/-- The annotations of a module make only functions with a property kernels. -/
def Marked (m : Module) (p : String → Prop) : Prop :=
  ∀ r ∈ m.listed annotations, ∃ function, p function ∧ m.node? r = some (kernelNode function)

theorem Marked.of_mem_kernels (h : m.Marked p) (hk : function ∈ m.kernels) : p function := by
  rw [kernels_eq] at hk
  obtain ⟨r, hr, hk⟩ := List.mem_filterMap.1 hk
  obtain ⟨k, hpk, hnode⟩ := h r hr
  rw [hnode] at hk
  exact Option.some.inj hk ▸ hpk

theorem Marked.contains (h : m.Marked p) (hr : r ∈ m.listed annotations) : m.nodes.contains r := by
  obtain ⟨k, -, hnode⟩ := h r hr
  obtain ⟨d, hd, -⟩ := Option.map_eq_some_iff.1 hnode
  rw [SortedMap.contains, hd]
  rfl

theorem linkInto_cases {dest src : Module} {outcome : Except LinkError Unit}
    (h : dest.linkInto src = .ok (outcome, m)) :
    (∃ e, outcome = .error e ∧ m = dest) ∨ outcome = .ok () ∧ dest.merge src = .ok m := by
  rw [linkInto] at h
  split at h
  · cases h
    exact .inl ⟨_, rfl, rfl⟩
  · obtain ⟨merged, hmerge, h⟩ := Outcome.bind_eq_ok.1 h
    cases h
    exact .inr ⟨rfl, hmerge⟩

/-- A kernel stays when the module is completed with a library, if the module is well formed
    then. -/
theorem Launches.lowerWith (h : m.Launches function r) (hrun : m.lowerWith file = .ok m₁)
    (hwell : m₁.WellFormed) : m₁.Launches function r := by
  rw [Module.lowerWith] at hrun
  cases hload : loadLibrary file with
  | error e =>
    rw [hload] at hrun
    exact Outcome.pure_eq_ok.1 hrun ▸ h
  | ok library =>
    rw [hload] at hrun
    obtain ⟨⟨outcome, m'⟩, hlink, hlinked⟩ := Outcome.bind_eq_ok.1 hrun
    obtain ⟨e, rfl, rfl⟩ | ⟨rfl, hmerge⟩ := linkInto_cases hlink
    · exact Outcome.pure_eq_ok.1 hlinked ▸ h
    · exact (h.merge hmerge).internalize.lowerPowers hlinked hwell

/-- If a library was linked into a module, the definitions seen from outside are the kernels of
    the module and those functions that an annotation of the library makes kernels. -/
theorem Marked.lowerWith_exposes (h : m.Marked p) (hrun : m.lowerWith file = .ok m₁)
    {library m' : Module} (hload : loadLibrary file = .ok library)
    (hlink : m.linkInto library = .ok (.ok (), m')) :
    m₁.Exposes fun name => p name ∨
      ∃ old, library.Annotates old ∧ (m.newNames library).apply old = name := by
  rw [lowerWith, hload] at hrun
  dsimp only at hrun
  rw [hlink, Outcome.ok_bind] at hrun
  obtain ⟨e, he, -⟩ | ⟨-, hmerge⟩ := linkInto_cases hlink
  · cases he
  refine Exposes.follows (fun f hf hbody hlinkage => ?_) (lowerPowers_spec hrun).1
  have hkernel := internalize_exposes f hf hbody hlinkage
  obtain hkernel | hold := kernels_merge (fun r => h.contains) hmerge hkernel
  · exact .inl (h.of_mem_kernels hkernel)
  · exact .inr hold

end Module

/-! ## Lowering -/

namespace Module

variable {m m' : Module} {p : String → Prop} {r : NodeRef} {function : String} {f : Function}

/-- A module with the metadata of another one, and its definitions, keeps its kernels. -/
theorem Launches.congr (h : m.Launches function r) (hfunctions : ∀ f ∈ m.functions, f ∈ m'.functions)
    (hnodes : m'.nodes = m.nodes) (hlists : m'.lists = m.lists) : m'.Launches function r := by
  obtain ⟨f, hf, hdefined⟩ := h.defined
  refine ⟨⟨f, hfunctions f hf, hdefined⟩, listed_congr hlists ▸ h.listed, ?_⟩
  rw [node?, hnodes]
  exact h.node

theorem Marked.congr (h : m.Marked p) (hnodes : m'.nodes = m.nodes) (hlists : m'.lists = m.lists) :
    m'.Marked p := by
  intro r hr
  rw [node?, hnodes]
  exact h r (listed_congr hlists ▸ hr)

/-- A node for a kernel gets a number of its own, and stands in the list of the annotations. -/
theorem annotateKernel_spec (h : m.annotateKernel function = .ok m') :
    m'.functions = m.functions ∧ (∀ r node, m.node? r = some node → m'.node? r = some node) ∧
      ∃ s, m'.node? s = some (kernelNode function) ∧
        m'.listed annotations = m.listed annotations ++ [s] := by
  simp only [annotateKernel, addNode, Outcome.bind_eq_ok, Outcome.pure_eq_ok] at h
  obtain ⟨⟨_, s⟩, ⟨_, hs, heq⟩, rfl⟩ := h
  cases heq
  refine ⟨rfl, fun r node hnode => ?_, s, ?_, ?_⟩
  · obtain ⟨d, hd, hnode⟩ := node?_eq_some.1 hnode
    refine node?_eq_some.2 ⟨d, SortedMap.mem_set.2 (.inr ⟨hd, fun heq => ?_⟩), hnode⟩
    have hlt := m.nodes.lt_next hs hd
    rw [heq] at hlt
    exact Nat.lt_irrefl _ hlt
  · exact node?_eq_some.2 ⟨_, SortedMap.mem_set.2 (.inl rfl), rfl⟩
  · rw [listed_appendToList, if_pos rfl]
    rfl

/-- One more function: it is a kernel if it is made one, and the others are what they were. -/
theorem Marked.add {kernel : Bool} (h : m.Marked p) (hlinkage : f.linkage = .external)
    (hbody : kernel = true → f.isDeclaration = false) (hname : kernel = true → p f.name)
    (hadd : m.add f kernel = .ok m') :
    m'.Marked p ∧ (∀ k r, m.Launches k r → m'.Launches k r) ∧
      (kernel = true → ∃ r, m'.Launches f.name r) := by
  have hmem : ∀ g ∈ m.functions, g ∈ m.functions ++ [f] := fun g hg => List.mem_append_left _ hg
  rw [Module.add] at hadd
  cases kernel with
  | false =>
    obtain rfl := Except.ok.inj hadd
    exact ⟨h.congr rfl rfl, fun k r hk => hk.congr hmem rfl rfl,
      fun hkernel => absurd hkernel Bool.false_ne_true⟩
  | true =>
    have h' : ({ m with functions := m.functions ++ [f] } : Module).Marked p := h.congr rfl rfl
    obtain ⟨hfunctions, hnodes, s, hs, hlisted⟩ := annotateKernel_spec hadd
    refine ⟨fun r hr => ?_, fun k r hk => ?_, fun _ => ⟨s, ⟨f, ?_, rfl, hbody rfl, hlinkage⟩,
      ?_, hs⟩⟩
    · rw [hlisted] at hr
      obtain hr | hr := List.mem_append.1 hr
      · obtain ⟨k, hk, hnode⟩ := h' r hr
        exact ⟨k, hk, hnodes r _ hnode⟩
      · exact ⟨f.name, hname rfl, List.mem_singleton.1 hr ▸ hs⟩
    · obtain ⟨g, hg, hdefined⟩ := hk.defined
      refine ⟨⟨g, ?_, hdefined⟩, ?_, hnodes r _ hk.node⟩
      · rw [hfunctions]
        exact hmem g hg
      · rw [hlisted]
        exact List.mem_append_left _ hk.listed
    · rw [hfunctions]
      exact List.mem_append_right _ (List.mem_singleton_self f)
    · rw [hlisted]
      exact List.mem_append_right _ (List.mem_singleton_self s)

end Module

/-- A function of a program is marked as a kernel, and has a body. -/
structure IsKernel (ctx : Context) (o : OpRef) (name : String) : Prop where
  functionName : ctx.functionName o = .ok name
  isDeclaration : ctx.isDeclaration o = .ok false
  isKernel : ctx.isKernel o = .ok true

variable {ctx : Context} {op : OpRef} {m m' : Module} {i needed : List Function} {ops : List OpRef}
  {p : String → Prop} {f : Function} {name : String}

/-- A function is only declared iff its operation is. -/
theorem Lowers.isDeclaration (h : Lowers ctx op f needed) :
    ctx.isDeclaration op = .ok f.isDeclaration := by
  obtain ⟨_, _, _, r, region, -, -, -, hr, hregion, hbody⟩ := h.body
  rw [Context.isDeclaration, hr, Outcome.ok_bind, hregion, Outcome.ok_bind, Function.isDeclaration]
  generalize region.blocks = blocks at hbody
  cases hbody with
  | declaration _ hblocks => rw [hblocks]; rfl
  | definition _ hblocks => rw [hblocks]; rfl

/-- The kernels of a list of functions are kernels of the module that these are lowered into, and
    there are no others but those that were there. -/
theorem marked_of_lowerFunctions (hm : m.Marked p)
    (hp : ∀ o ∈ ops, ∀ k, IsKernel ctx o k → p k)
    (h : (lowerFunctions ctx m i ops).run = .ok (.ok (m', needed))) :
    m'.Marked p ∧ (∀ k r, m.Launches k r → m'.Launches k r) ∧
      ∀ o ∈ ops, ∀ k, IsKernel ctx o k → ∃ r, m'.Launches k r := by
  induction ops generalizing m i with
  | nil =>
    cases Lowered.pure_eq_ok.1 h
    exact ⟨hm, fun _ _ => id, nofun⟩
  | cons o ops ih =>
    obtain ⟨f, _, kernel, next, hf, hkernel, hadd, hrest⟩ := lowerFunctions_cons h
    have hmark : (!f.isDeclaration && kernel) = true → IsKernel ctx o f.name := fun hmark => by
      rw [Bool.and_eq_true, Bool.not_eq_true'] at hmark
      exact ⟨hf.functionName, hmark.1 ▸ hf.isDeclaration, hmark.2 ▸ hkernel⟩
    obtain ⟨hnext, hkeep, hnew⟩ := hm.add hf.linkage (fun hmark => by simp_all)
      (fun hk => hp o List.mem_cons_self _ (hmark hk)) hadd
    obtain ⟨hm', hkeep', hrest⟩ := ih hnext (fun o ho => hp o (List.mem_cons_of_mem _ ho)) hrest
    refine ⟨hm', fun k r hk => hkeep' k r (hkeep k r hk), List.forall_mem_cons.2 ⟨?_, hrest⟩⟩
    rintro k ⟨hname, hbody, hmarked⟩
    rw [hf.functionName] at hname
    rw [hf.isDeclaration] at hbody
    rw [hkernel] at hmarked
    obtain ⟨r, hr⟩ := hnew (by rw [Except.ok.inj hbody, Except.ok.inj hmarked]; rfl)
    exact ⟨r, hkeep' k r (Except.ok.inj hname ▸ hr)⟩

/-! ## From the program to the code -/

variable {path text : String} {root : OpRef} {findings : Findings} {file : TextFile} {level : Int}
  {m₁ m₂ : Module}

/-- A device module of a valid program is lowered, completed with a library, and optimized. In the
    code that comes of it, every function that is marked as a kernel and has a body is still defined
    and seen from outside, and its annotation is the one that it got at first. If the library was
    linked, all other definitions are internal, unless an annotation of the library makes them
    kernels. -/
theorem kernels_stay (hread : Context.empty.read path text = (.ok root, ctx))
    (hfindings : ctx.findings root = .ok findings) (hvalid : findings.isEmpty)
    (hop : ctx.Within op root) (hkind : ctx.kindOf op = .gpuModule)
    (hlower : (lowerModule ctx op name).run = .ok (.ok m)) {triple : Option String}
    (hcomplete : { m with triple }.lowerWith file = .ok m₁)
    (hoptimize : m₁.optimize level = (.ok (), m₂)) :
    (∀ o ∈ ctx.childrenOf op, ∀ k, IsKernel ctx o k →
      (∃ f, m₂.function? k = some f ∧ f.isDeclaration = false ∧ f.linkage = .external) ∧
        k ∈ m₂.kernels ∧ ∃ r, r ∈ m.listed annotations ∧ m.node? r = some (Module.kernelNode k) ∧
          r ∈ m₂.listed annotations ∧ m₂.node? r = some (Module.kernelNode k)) ∧
      ∀ library linked, loadLibrary file = .ok library →
        { m with triple }.linkInto library = .ok (.ok (), linked) →
        ∀ f ∈ m₂.functions, f.isDeclaration = false →
          (¬∃ o ∈ ctx.childrenOf op, IsKernel ctx o f.name) →
          (¬∃ old, library.Annotates old ∧
            (({ m with triple } : Module).newNames library).apply old = f.name) →
          f.linkage = .internal := by
  have hvalid := Build.read_valid hread hfindings hvalid
  obtain ⟨hsound, hroot, -⟩ := Build.read_built hread
  have hc := hsound.coherent
  have hfits := (hvalid.shaped op hop).fits _ (by rw [hkind]; rfl)
  obtain ⟨b, row, hb, hrow, hops⟩ := hfits.childrenOf_eq hc (hc.hasOp_of_within' hop hroot) rfl
  obtain ⟨b', row', m', ⟨_, hrun⟩, hb', hrow', ⟨new, hfunctions, -⟩, hnodes, hlists⟩ :=
    lowerModule_eq_ok hlower
  obtain rfl : b = b' := Except.ok.inj (hb.symm.trans hb')
  obtain rfl : row = row' := Except.ok.inj (hrow.symm.trans hrow')
  rw [hops]
  have hempty : ({ name } : Module).Marked fun k => ∃ o ∈ row.ops, IsKernel ctx o k :=
    fun r hr => absurd hr List.not_mem_nil
  obtain ⟨hmarked, -, hkernels⟩ := marked_of_lowerFunctions hempty
    (fun o ho k hk => ⟨o, ho, hk⟩) hrun
  have hmarked : ({ m with triple } : Module).Marked _ := hmarked.congr hnodes hlists
  have hlaunches (k : String) (r : NodeRef) (hk : m'.Launches k r) :
      ({ m with triple } : Module).Launches k r :=
    hk.congr (fun f hf => hfunctions ▸ List.mem_append_left new hf) hnodes hlists
  obtain ⟨hwell, hfinal⟩ := Module.optimize_eq_ok hoptimize
  have hkeeps := Module.keeps_optimize hoptimize
  have hnames : (m₂.functions.map (·.name)).Nodup :=
    hfinal ▸ (hwell.passes level.toNat false).names_cleanUp
  constructor
  · intro o ho k hk
    obtain ⟨r, hr⟩ := hkernels o ho k hk
    have hfirst := hlaunches k r hr
    have hlast := hkeeps.launches k r (hfirst.lowerWith hcomplete hwell)
    obtain ⟨f, hf, hname, hdefined⟩ := hlast.defined
    exact ⟨⟨f, (Module.function?_eq_some hnames).2 ⟨hf, hname⟩, hdefined⟩, hlast.mem_kernels, r,
      hfirst.listed, hfirst.node, hlast.listed, hlast.node⟩
  · intro library linked hload hlink f hf hbody hnone hforeign
    cases hlinkage : f.linkage with
    | internal => rfl
    | external =>
      have hexposes := (hmarked.lowerWith_exposes hcomplete hload hlink).follows hkeeps.follows
      exact ((hexposes f hf hbody hlinkage).elim hnone hforeign).elim

/-! ### A kernel that computes a power -/

/-- A kernel that computes a power, next to a function that does nothing. -/
def powerKernel : String :=
  "gpu.module @m \x7b
  func.func @idle \x7btype = func.fn(core.nil)\x7d \x7b
    func.return
  \x7d
  func.func @power \x7bgpu.kernel = unit, type = func.fn(core.nil, core.f32, core.i32, core.ptr)\x7d \x7b
    ^bb0(%x: core.f32, %n: core.i32, %p: core.ptr):
      %r = arith.powi %x, %n : core.f32
      mem.store %r, %p
      func.return
  \x7d
\x7d
"

/-- A library with the function for powers. -/
def powerLibrary : TextFile where
  path := "power.ll"
  content := .ok
    "define float @__nv_powif(float %x, i32 %n) \x7b
entry:
  ret float %x
\x7d
"

/-- The kernel, which calls a function for powers. -/
def powerDefinition (callee : String) : Function where
  name := "power"
  linkage := .external
  returnType := .void
  parameters := [⟨.float, some "0"⟩, ⟨.i32, some "1"⟩, ⟨.ptr, some "2"⟩]
  blocks :=
    [⟨"entry",
      [{ result := some "3", action := .call .float callee [(.float, .value "0"), (.i32, .value "1")] },
        { result := none, action := .store .float (.value "3") (.value "2") },
        { result := none, action := .ret none }]⟩]

/-- The function that does nothing. -/
def idleFunction (linkage : Linkage) : Function where
  name := "idle"
  linkage
  returnType := .void
  parameters := []
  blocks := [⟨"entry", [{ result := none, action := .ret none }]⟩]

/-- The device code. -/
def powerCode : Module where
  name := "m"
  functions :=
    [idleFunction .external, powerDefinition "llvm.powi.f32.i32",
      .declaration "llvm.powi.f32.i32" .float [.float, .i32]]
  lists := [⟨annotations, [⟨0⟩]⟩]
  nodes := .ofList [(⟨0⟩, ⟨false, Module.kernelNode "power"⟩)]

/-- The function of the library. -/
def libraryFunction (linkage : Linkage) : Function where
  name := "__nv_powif"
  linkage
  returnType := .float
  parameters := [⟨.float, some "x"⟩, ⟨.i32, some "n"⟩]
  blocks := [⟨"entry", [{ result := none, action := .ret (some (.float, .value "x")) }]⟩]

/-- The device code with the library. -/
def powerCompleted : Module :=
  { powerCode with
    triple := some "nvptx64-nvidia-cuda"
    functions :=
      [idleFunction .internal, powerDefinition "__nv_powif", libraryFunction .internal] }

set_option maxRecDepth 100000 in
/-- The power is a kernel in the end, and the function that does nothing is internal. -/
theorem kernels_stay_power : ∃ root ctx findings m₂,
    Context.empty.read "f" powerKernel = (.ok root, ctx) ∧ ctx.findings root = .ok findings ∧
      findings.isEmpty ∧ ctx.Within root root ∧ ctx.kindOf root = .gpuModule ∧
      (lowerModule ctx root "m").run = .ok (.ok powerCode) ∧
      { powerCode with triple := some "nvptx64-nvidia-cuda" }.lowerWith powerLibrary =
        .ok powerCompleted ∧
      powerCompleted.optimize 1 = (.ok (), m₂) ∧ "power" ∈ m₂.kernels ∧
      (∃ f, m₂.function? "power" = some f ∧ f.isDeclaration = false ∧ f.linkage = .external) ∧
      ∀ f ∈ m₂.functions, f.isDeclaration = false → f.name = "idle" → f.linkage = .internal := by
  have hreads : Build.readsAs "f" powerKernel fun root ctx =>
      decide (ctx.kindOf root = .gpuModule ∧ (lowerModule ctx root "m").run = .ok (.ok powerCode) ∧
        (∃ o ∈ ctx.childrenOf root, ctx.functionName o = .ok "power" ∧
          ctx.isDeclaration o = .ok false ∧ ctx.isKernel o = .ok true) ∧
        ∀ o ∈ ctx.childrenOf root, ctx.functionName o = .ok "idle" →
          ctx.isKernel o = .ok false) := Build.readsAs_ofList (by decide +kernel)
  have hcomplete : { powerCode with triple := some "nvptx64-nvidia-cuda" }.lowerWith powerLibrary =
      .ok powerCompleted := by decide +kernel
  have hoptimize : powerCompleted.optimize 1 = (.ok (), (powerCompleted.optimize 1).2) :=
    Prod.ext (by decide +kernel) rfl
  have hload : loadLibrary powerLibrary =
      .ok { name := "power.ll", functions := [libraryFunction .external] } := by decide +kernel
  have hlink : { powerCode with triple := some "nvptx64-nvidia-cuda" }.linkInto
      { name := "power.ll", functions := [libraryFunction .external] } =
        .ok (.ok (), { powerCode with
          triple := some "nvptx64-nvidia-cuda"
          functions := powerCode.functions ++ [libraryFunction .external] }) := by decide +kernel
  obtain ⟨root, ctx, findings, hread, hfindings, hvalid, htest⟩ := Build.exists_of_readsAs hreads
  obtain ⟨hkind, hlower, ⟨o, ho, hname, hbody, hmarked⟩, hidle⟩ := of_decide_eq_true htest
  obtain ⟨hkernels, hinternal⟩ := kernels_stay hread hfindings hvalid (.refl root) hkind hlower
    hcomplete hoptimize
  obtain ⟨hdefined, hlisted, -⟩ := hkernels o ho "power" ⟨hname, hbody, hmarked⟩
  refine ⟨root, ctx, findings, _, hread, hfindings, hvalid, .refl root, hkind, hlower, hcomplete,
    hoptimize, hlisted, hdefined, fun f hf hbody hname => ?_⟩
  refine hinternal _ _ hload hlink f hf hbody ?_ ?_
  · rintro ⟨o, ho, hk⟩
    rw [hname] at hk
    have hmarked := hidle o ho hk.functionName
    rw [hk.isKernel] at hmarked
    cases hmarked
  · rintro ⟨old, ⟨l, hl, -⟩, -⟩
    cases hl

end Offload.Device
