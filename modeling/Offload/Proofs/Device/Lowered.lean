import Offload.Device.Lowering
import Offload.Proofs.Device.Rewriting
import Offload.Proofs.Outcome

/-!
# What lowering makes of functions

A computation of lowering succeeds iff all of its steps do. Taken apart in this way, the success of
`lowerFunction` says what the function is like (`Lowers`): it has the name of the operation, is seen
from outside, and has a body iff the operation has one, of the instructions that were built for the
operations of its only block.
-/

namespace Offload.Device

variable {α β : Type}

/-! ## Computations that succeed -/

namespace Lowered

theorem bind_eq_ok {x : Lowered α} {f : α → Lowered β} {b : β} :
    (x >>= f).run = .ok (.ok b) ↔ ∃ a, x.run = .ok (.ok a) ∧ (f a).run = .ok (.ok b) := by
  change (x.run >>= ExceptT.bindCont f) = _ ↔ _
  rw [Outcome.bind_eq_ok]
  constructor
  · rintro ⟨answer, hx, hf⟩
    cases answer with
    | ok a => exact ⟨a, hx, hf⟩
    | error e => cases hf
  · rintro ⟨a, hx, hf⟩
    exact ⟨.ok a, hx, hf⟩

theorem pure_eq_ok {a b : α} : (pure a : Lowered α).run = .ok (.ok b) ↔ a = b := by
  change (Except.ok (Except.ok a) : Except Fault (Except LowerError α)) = _ ↔ _
  rw [Except.ok.injEq, Except.ok.injEq]

theorem lift_eq_ok {x : Except Fault α} {a : α} :
    (liftM x : Lowered α).run = .ok (.ok a) ↔ x = .ok a := by
  cases x with
  | ok b => exact pure_eq_ok.trans (by rw [Except.ok.injEq])
  | error e => exact ⟨fun h => (by cases h), fun h => (by cases h)⟩

theorem mapM_eq_ok {f : α → Lowered β} {as : List α} {bs : List β} :
    (as.mapM f).run = .ok (.ok bs) ↔ List.Forall₂ (fun a b => (f a).run = .ok (.ok b)) as bs := by
  induction as generalizing bs with
  | nil => cases bs <;> simp
  | cons a as ih =>
    simp only [List.mapM_cons, bind_eq_ok, pure_eq_ok, ih]
    constructor
    · rintro ⟨b, hb, bs, hbs, rfl⟩
      exact .cons hb hbs
    · rintro (_ | ⟨hb, hbs⟩)
      exact ⟨_, hb, _, hbs, rfl⟩

end Lowered

/-! ## Steps of building that succeed -/

namespace Builder

variable {b b' : Building}

/-- A step of building succeeds with an answer, and what has been built then. -/
def Gives (x : Builder α) (b : Building) (a : α) (b' : Building) : Prop :=
  (x.run b).run = .ok (.ok (a, b'))

theorem gives_bind {x : Builder α} {f : α → Builder β} {y : β} :
    Gives (x >>= f) b y b' ↔ ∃ a next, Gives x b a next ∧ Gives (f a) next y b' := by
  refine Lowered.bind_eq_ok.trans ⟨?_, ?_⟩
  · rintro ⟨⟨a, next⟩, hx, hf⟩
    exact ⟨a, next, hx, hf⟩
  · rintro ⟨a, next, hx, hf⟩
    exact ⟨(a, next), hx, hf⟩

theorem gives_pure {a y : α} : Gives (pure a) b y b' ↔ a = y ∧ b = b' := by
  refine Lowered.pure_eq_ok.trans ?_
  rw [Prod.mk.injEq]

theorem gives_throw {e : LowerError} {a : α} : ¬Gives (throw e) b a b' := fun h => by cases h

theorem gives_lift {x : Except Fault α} {a : α} :
    Gives (liftM x) b a b' ↔ x = .ok a ∧ b = b' := by
  cases x with
  | ok y => exact gives_pure.trans (by rw [Except.ok.injEq])
  | error e => exact ⟨fun h => (by cases h), fun h => (by cases h.1)⟩

end Builder

/-! ## Functions -/

variable {ctx : Context} {op : OpRef} {f : Function} {needed : List Function}

/-- The types of a list have lowered forms. -/
def LowerTypes (ctx : Context) : List TypeRef → List DataType → Prop :=
  List.Forall₂ fun t type => lowerType? ctx t = .ok (some type)

/-- The body of a function: it has none, or one block, the instructions of which are built. -/
inductive LowersBody (ctx : Context) (types : List DataType) (f : Function) :
    List BlockRef → List Function → Prop
  | declaration (hparameters : f.parameters = types.map (⟨·, none⟩)) (hblocks : f.blocks = []) :
    LowersBody ctx types f [] []
  | definition {block : BlockRef} {b : Building}
    (hrun : ((lowerBlock ctx f.name block types).run {}).run = .ok (.ok (f.parameters, b)))
    (hblocks : f.blocks = [⟨"entry", b.instructions⟩]) :
    LowersBody ctx types f [block] b.intrinsics

/-- Lowering an operation gives a function, and the intrinsics that it needs. -/
structure Lowers (ctx : Context) (op : OpRef) (f : Function) (needed : List Function) : Prop where
  kind : ctx.kind op = .ok .func
  functionName : ctx.functionName op = .ok f.name
  linkage : f.linkage = .external
  debug : f.debug = none
  body : ∃ type ts types r region, ctx.functionType op = .ok type ∧ ctx.paramTypes type = .ok ts ∧
    LowerTypes ctx ts types ∧ ctx.regionAt op 0 = .ok r ∧ ctx.region r = .ok region ∧
    LowersBody ctx types f region.blocks needed

theorem lowers_of_lowerFunction (h : (lowerFunction ctx op).run = .ok (.ok (f, needed))) :
    Lowers ctx op f needed := by
  rw [lowerFunction] at h
  obtain ⟨kind, hkind, h⟩ := Lowered.bind_eq_ok.1 h
  split at h
  · obtain ⟨_, hthrow, -⟩ := Lowered.bind_eq_ok.1 h
    cases hthrow
  rename_i hfunc
  obtain rfl := not_not.1 hfunc
  obtain ⟨name, hname, h⟩ := Lowered.bind_eq_ok.1 h
  obtain ⟨type, htype, h⟩ := Lowered.bind_eq_ok.1 h
  obtain ⟨t, ht, h⟩ := Lowered.bind_eq_ok.1 h
  simp only [Lowered.lift_eq_ok] at hkind hname htype ht
  cases t with
  | none => cases h
  | some t =>
    obtain ⟨returnType, -, h⟩ := Lowered.bind_eq_ok.1 h
    cases returnType with
    | none => cases h
    | some returnType =>
      obtain ⟨ts, hts, h⟩ := Lowered.bind_eq_ok.1 h
      obtain ⟨types, htypes, h⟩ := Lowered.bind_eq_ok.1 h
      obtain ⟨r, hr, h⟩ := Lowered.bind_eq_ok.1 h
      obtain ⟨region, hregion, h⟩ := Lowered.bind_eq_ok.1 h
      simp only [Lowered.lift_eq_ok] at hts hr hregion
      have hbody (hname : ctx.functionName op = .ok f.name) (hlinkage : f.linkage = .external)
          (hdebug : f.debug = none) (hlowers : LowersBody ctx types f region.blocks needed) :
          Lowers ctx op f needed := by
        refine ⟨hkind, hname, hlinkage, hdebug, type, ts, types, r, region, htype, hts, ?_, hr,
          hregion, hlowers⟩
        refine (Lowered.mapM_eq_ok.1 htypes).imp fun t type hrun => ?_
        obtain ⟨answer, hanswer, hrun⟩ := Lowered.bind_eq_ok.1 hrun
        rw [Lowered.lift_eq_ok] at hanswer
        cases answer with
        | none => cases hrun
        | some type' => exact Lowered.pure_eq_ok.1 hrun ▸ hanswer
      split at h
      next hblocks =>
        cases h
        exact hbody hname rfl rfl (hblocks ▸ .declaration rfl rfl)
      next block hblocks =>
        obtain ⟨⟨parameters, b⟩, hrun, h⟩ := Lowered.bind_eq_ok.1 h
        cases h
        exact hbody hname rfl rfl (hblocks ▸ .definition hrun rfl)
      next => cases h

/-! ## Modules -/

variable {m m' : Module} {name : String} {ops : List OpRef} {i needed' : List Function}

/-- The module with one more function, which is made a kernel or not. -/
def Module.add (m : Module) (f : Function) (kernel : Bool) : Except Fault Module :=
  let m := { m with functions := m.functions ++ [f] }
  if kernel then m.annotateKernel f.name else .ok m

theorem Module.functions_add {kernel : Bool} (h : m.add f kernel = .ok m') :
    m'.functions = m.functions ++ [f] := by
  rw [Module.add] at h
  split at h
  · simp only [annotateKernel, addNode, Outcome.bind_eq_ok, Outcome.pure_eq_ok] at h
    obtain ⟨⟨_, r⟩, ⟨_, _, heq⟩, rfl⟩ := h
    cases heq
    rfl
  · cases h
    rfl

/-- Lowering a list of functions begins with the first of them. -/
theorem lowerFunctions_cons
    (h : (lowerFunctions ctx m i (op :: ops)).run = .ok (.ok (m', needed'))) :
    ∃ f needed kernel next, Lowers ctx op f needed ∧ ctx.isKernel op = .ok kernel ∧
      m.add f (!f.isDeclaration && kernel) = .ok next ∧
      (lowerFunctions ctx next (i ++ needed) ops).run = .ok (.ok (m', needed')) := by
  rw [lowerFunctions] at h
  obtain ⟨⟨f, needed⟩, hf, h⟩ := Lowered.bind_eq_ok.1 h
  obtain ⟨kernel, hkernel, h⟩ := Lowered.bind_eq_ok.1 h
  have hadd : ∃ next, m.add f (!f.isDeclaration && kernel) = .ok next ∧
      (lowerFunctions ctx next (i ++ needed) ops).run = .ok (.ok (m', needed')) := by
    rw [Module.add]
    dsimp only at h ⊢
    split at h
    next hmark =>
      obtain ⟨next, hnext, h⟩ := Lowered.bind_eq_ok.1 h
      exact ⟨next, by rw [if_pos hmark]; exact Lowered.lift_eq_ok.1 hnext, h⟩
    next hmark =>
      obtain ⟨next, hnext, h⟩ := Lowered.bind_eq_ok.1 h
      obtain rfl := Lowered.pure_eq_ok.1 hnext
      exact ⟨_, if_neg hmark, h⟩
  obtain ⟨next, hnext, h⟩ := hadd
  exact ⟨f, needed, kernel, next, lowers_of_lowerFunction hf, Lowered.lift_eq_ok.1 hkernel, hnext,
    h⟩

/-- Functions are declared one after the other. -/
theorem declare_all (fs : List Function) (m : Module) :
    (∃ new, (fs.foldl (fun m f => m.declare f.name f.returnType f.parameterTypes) m).functions =
        m.functions ++ new ∧ ∀ f ∈ new, ∃ name type types, f = .declaration name type types) ∧
      (fs.foldl (fun m f => m.declare f.name f.returnType f.parameterTypes) m).nodes = m.nodes ∧
      (fs.foldl (fun m f => m.declare f.name f.returnType f.parameterTypes) m).lists = m.lists := by
  induction fs generalizing m with
  | nil => exact ⟨⟨[], by simp⟩, rfl, rfl⟩
  | cons f fs ih =>
    obtain ⟨first, hfirst, hbody⟩ := m.functions_declare f.name f.returnType f.parameterTypes
    obtain ⟨⟨new, hnew, hbodies⟩, hnodes, hlists⟩ :=
      ih (m.declare f.name f.returnType f.parameterTypes)
    refine ⟨⟨first ++ new, ?_, fun g hg => ?_⟩, ?_, ?_⟩
    · rw [List.foldl_cons, hnew, hfirst, List.append_assoc]
    · obtain hg | hg := List.mem_append.1 hg
      · exact ⟨_, _, _, hbody g hg⟩
      · exact hbodies g hg
    · exact hnodes.trans (Module.nodes_declare _ _ _)
    · exact hlists.trans (Module.lists_declare _ _ _)

/-- A module is lowered function by function, and its intrinsics are declared then. -/
theorem exists_of_lowerModule (h : (lowerModule ctx op name).run = .ok (.ok m)) :
    ∃ b row m' needed, ctx.blockAt op 0 = .ok b ∧ ctx.block b = .ok row ∧
      (lowerFunctions ctx { name } [] row.ops).run = .ok (.ok (m', needed)) ∧
      needed.foldl (fun m f => m.declare f.name f.returnType f.parameterTypes) m' = m := by
  rw [lowerModule] at h
  obtain ⟨b, hb, h⟩ := Lowered.bind_eq_ok.1 h
  obtain ⟨row, hrow, h⟩ := Lowered.bind_eq_ok.1 h
  obtain ⟨⟨m', needed⟩, hrun, h⟩ := Lowered.bind_eq_ok.1 h
  exact ⟨b, row, m', needed, Lowered.lift_eq_ok.1 hb, Lowered.lift_eq_ok.1 hrow, hrun,
    Lowered.pure_eq_ok.1 h⟩

/-- The intrinsics come after all other functions, and are declarations. -/
theorem lowerModule_eq_ok (h : (lowerModule ctx op name).run = .ok (.ok m)) :
    ∃ b row m', (∃ needed, (lowerFunctions ctx { name } [] row.ops).run = .ok (.ok (m', needed))) ∧
      ctx.blockAt op 0 = .ok b ∧ ctx.block b = .ok row ∧
      (∃ new, m.functions = m'.functions ++ new ∧ ∀ f ∈ new, f.isDeclaration = true) ∧
      m.nodes = m'.nodes ∧ m.lists = m'.lists := by
  obtain ⟨b, row, m', needed, hb, hrow, hrun, rfl⟩ := exists_of_lowerModule h
  obtain ⟨⟨new, hnew, hplain⟩, hnodes, hlists⟩ := declare_all needed m'
  refine ⟨b, row, m', ⟨needed, hrun⟩, hb, hrow, ⟨new, hnew, fun f hf => ?_⟩, hnodes, hlists⟩
  obtain ⟨_, _, _, rfl⟩ := hplain f hf
  rfl

end Offload.Device
