import Offload.Device.Optimize
import Offload.Proofs.Device.Preservation
import Offload.Proofs.Ptx.Registers

/-!
# Classes of registers in programs

A device module is lowered, optimized or not, and written in assembly. If the types of the program
fit, every register of the assembly is of the class that its instruction takes, but for numbers
that are passed by their bits (`registers_fit`).

Nothing but the hypotheses sees to this. Validity says nothing of types, and the emitter itself is
wrong about single bits that are compared, passed or returned, and about indices that are wider than
addresses. For each of the hypotheses there is a valid program that does not meet it, and that is
written with a register of another class (`registers_misplaced`).
-/

namespace Offload.Ptx

open Device (lowerModule FunctionTyped)

variable {ctx : Context} {op root : OpRef} {path text name : String} {findings : Findings}
  {m m' : Device.Module} {t : Target} {a : Assembly} {f : Function} {i : Instruction}

/-- A device module of a valid program whose types fit is written in assembly, at once or after it
    was optimized. Then the registers in its functions are of the classes that the instructions
    take, or the bits of a floating-point number are passed. The types do not fit where the emitter
    is wrong about them (`Device.Supported`). -/
theorem registers_fit [TripleLibrary]
    (hread : Context.empty.read path text = (.ok root, ctx))
    (hfindings : ctx.findings root = .ok findings) (hvalid : findings.isEmpty)
    (hop : ctx.Within op root) (hkind : ctx.kindOf op = .gpuModule)
    (htyped : ∀ f ∈ ctx.childrenOf op, FunctionTyped t.isWide ctx f)
    (hlower : (lowerModule ctx op name).run = .ok (.ok m)) {triple : Option String}
    (hoptimize : m' = { m with triple } ∨ ∃ level, { m with triple }.optimize level = (.ok (), m'))
    (hemit : emit t m' = .ok a) (hf : f ∈ a.functions) (hi : .code i ∈ f.lines) : i.Sound t := by
  have hvalid := Build.read_valid hread hfindings hvalid
  obtain ⟨hsound, hroot, -⟩ := Build.read_built hread
  have hc := hsound.coherent
  have hfits := (hvalid.shaped op hop).fits _ (by rw [hkind]; rfl)
  obtain ⟨b, row, hb, hrow, hops⟩ := hfits.childrenOf_eq hc (hc.hasOp_of_within' hop hroot) rfl
  have hchildren : ctx.childrenOf op = ctx.opsOf b :=
    hops.trans (Context.readBlock_of_block hrow _ _).symm
  have hm : m.WellTyped t.isWide := Device.lowerModule_wellTyped hc hb (hchildren ▸ htyped) hlower
  have hm : ({ m with triple } : Device.Module).WellTyped t.isWide := hm
  have hm' : m'.WellTyped t.isWide := by
    obtain rfl | ⟨level, hrun⟩ := hoptimize
    · exact hm
    · exact hm.optimize hrun
  exact emit_sound hm' hemit hf hi

/-- The text of a device module with one function. -/
def singleFunction (type arguments body : String) : String :=
  "gpu.module @m \x7b\nfunc.func @f \x7btype = " ++ type ++ "\x7d \x7b\n^bb0(" ++ arguments ++
    "):\n" ++ body ++ "\n\x7d\n\x7d\n"

/-- The characters of that text. -/
def singleFunctionChars (type arguments body : List Char) : List Char :=
  "gpu.module @m \x7b\nfunc.func @f \x7btype = ".toList ++ type ++ "\x7d \x7b\n^bb0(".toList ++
    arguments ++ "):\n".toList ++ body ++ "\n\x7d\n\x7d\n".toList

theorem singleFunction_ofList (type arguments body : List Char) :
    singleFunction (String.ofList type) (String.ofList arguments) (String.ofList body) =
      String.ofList (singleFunctionChars type arguments body) := by
  have hpieces (a b c d : String) :
      a ++ String.ofList type ++ b ++ String.ofList arguments ++ c ++ String.ofList body ++ d =
        String.ofList
          (a.toList ++ type ++ b.toList ++ arguments ++ c.toList ++ body ++ d.toList) := by
    simp only [String.ofList_append, String.ofList_toList]
  exact hpieces _ _ _ _

theorem readsAs_singleFunction {path : String} {type arguments body : List Char}
    {test : OpRef → Context → Bool}
    (h : Build.readsAsChars path (singleFunctionChars type arguments body) test) :
    Build.readsAs path (singleFunction (String.ofList type) (String.ofList arguments)
      (String.ofList body)) test := by
  rw [singleFunction_ofList]
  exact Build.readsAs_ofList h

/-- A library that knows one triple. -/
local instance cudaLibrary : TripleLibrary := .wide ["nvptx64-nvidia-cuda"]

/-- A device whose addresses have 64 bits. -/
def wideTarget : Target := ⟨"nvptx64-nvidia-cuda", "sm_35", "+ptx60"⟩

/-- A device whose addresses have 32 bits. -/
def narrowTarget : Target := ⟨"nvptx-nvidia-cuda", "sm_35", "+ptx60"⟩

/-- A function that reads an element of an array. -/
def elementProgram : String :=
  singleFunction "func.fn(core.f32, core.ptr, core.i32)" "%p: core.ptr, %i: core.i32"
    "%q = mem.offset %p, %i \x7belem_type = core.f32\x7d : core.ptr
%x = mem.load %q : core.f32
func.return %x"

/-- The device code of the function. -/
def elementCode : Device.Module where
  name := "m"
  functions :=
    [{ name := "f"
       linkage := .external
       returnType := .float
       parameters := [⟨.ptr, some "0"⟩, ⟨.i32, some "1"⟩]
       blocks :=
        [⟨"entry",
          [{ result := some "2", action := .address false .float (.value "0") .i32 (.value "1") },
            { result := some "3", action := .load .float (.value "2") },
            { result := none, action := .ret (some (.float, .value "3")) }]⟩] }]

set_option maxRecDepth 100000 in
/-- The function is written, before and after it is optimized, in registers of the right classes. -/
theorem registers_fit_element : ∃ root ctx findings m' a a',
    Context.empty.read "f" elementProgram = (.ok root, ctx) ∧ ctx.findings root = .ok findings ∧
      findings.isEmpty ∧ ctx.Within root root ∧ ctx.kindOf root = .gpuModule ∧
      (∀ f ∈ ctx.childrenOf root, FunctionTyped wideTarget.isWide ctx f) ∧
      (lowerModule ctx root "m").run = .ok (.ok elementCode) ∧
      elementCode.optimize 2 = (.ok (), m') ∧ emit wideTarget elementCode = .ok a ∧
      emit wideTarget m' = .ok a' ∧
      ∀ f ∈ a.functions ++ a'.functions, ∀ i, .code i ∈ f.lines → i.Sound wideTarget := by
  have hreads : Build.readsAs "f" elementProgram fun root ctx =>
      decide (ctx.kindOf root = .gpuModule ∧
        (∀ f ∈ ctx.childrenOf root, FunctionTyped wideTarget.isWide ctx f) ∧
        (lowerModule ctx root "m").run = .ok (.ok elementCode)) :=
    readsAs_singleFunction (by decide +kernel)
  have hoptimize : elementCode.optimize 2 = (.ok (), (elementCode.optimize 2).2) :=
    Prod.ext (by decide +kernel) rfl
  have hemits : (emit wideTarget elementCode).isOk ∧
      (emit wideTarget (elementCode.optimize 2).2).isOk := by decide +kernel
  obtain ⟨root, ctx, findings, hread, hfindings, hvalid, htest⟩ := Build.exists_of_readsAs hreads
  obtain ⟨hkind, htyped, hlower⟩ := of_decide_eq_true htest
  obtain ⟨a, ha⟩ := Outcome.exists_of_isOk hemits.1
  obtain ⟨a', ha'⟩ := Outcome.exists_of_isOk hemits.2
  refine ⟨root, ctx, findings, _, a, a', hread, hfindings, hvalid, .refl root, hkind, htyped,
    hlower, hoptimize, ha, ha', fun f hf i hi => ?_⟩
  obtain hf | hf := List.mem_append.1 hf
  · exact registers_fit hread hfindings hvalid (.refl root) hkind htyped hlower (.inl rfl) ha hf hi
  · exact registers_fit hread hfindings hvalid (.refl root) hkind htyped hlower
      (.inr ⟨2, hoptimize⟩) ha' hf hi

/-! ## Programs whose types do not fit -/

/-- A text is a device module, and valid, but it is written for a target with a register of another
    class than its instruction takes. -/
def Misplaces (t : Target) (text : String) : Prop :=
  ∃ root ctx findings m a, Context.empty.read "f" text = (.ok root, ctx) ∧
    ctx.findings root = .ok findings ∧ findings.isEmpty ∧ ctx.kindOf root = .gpuModule ∧
    (lowerModule ctx root "m").run = .ok (.ok m) ∧ emit t m = .ok a ∧
    ∃ f ∈ a.functions, ∃ i, .code i ∈ f.lines ∧ ¬i.Strict t

/-- Whether a device module is written with such a register. -/
def misplacesAt (t : Target) (op : OpRef) (ctx : Context) : Bool :=
  match (lowerModule ctx op "m").run with
  | .ok (.ok m) =>
    match emit t m with
    | .ok a => a.functions.any fun f => f.lines.any fun
      | .code i => !decide (i.Strict t)
      | _ => false
    | .error _ => false
  | _ => false

theorem misplaces_of_readsAs (h : Build.readsAs "f" text fun root ctx =>
    decide (ctx.kindOf root = .gpuModule) && misplacesAt t root ctx) : Misplaces t text := by
  obtain ⟨root, ctx, findings, hread, hfindings, hvalid, htest⟩ := Build.exists_of_readsAs h
  rw [Bool.and_eq_true, decide_eq_true_eq] at htest
  obtain ⟨hkind, htest⟩ := htest
  rw [misplacesAt] at htest
  split at htest
  · rename_i m hlower
    split at htest
    · rename_i a hemit
      obtain ⟨f, hf, htest⟩ := List.any_eq_true.1 htest
      obtain ⟨l, hl, htest⟩ := List.any_eq_true.1 htest
      cases l with
      | code i =>
        exact ⟨root, ctx, findings, m, a, hread, hfindings, hvalid, hkind, hlower, hemit, f, hf, i,
          hl, by simpa using htest⟩
      | _ => cases htest
    · cases htest
  · cases htest

set_option maxRecDepth 100000 in
/-- Valid programs are written with registers of other classes than the instructions take. A
    floating-point number is returned by its bits, a sum has another type than its terms, and an
    argument has another type than the parameter. In the last four all types fit, and the emitter is
    wrong: a single bit is returned, passed and compared as a number, and an index that is wider
    than an address is added as it is. -/
theorem registers_misplaced :
    Misplaces wideTarget
        (singleFunction "func.fn(core.f32, core.f32)" "%x: core.f32" "func.return %x") ∧
      Misplaces wideTarget
        (singleFunction "func.fn(core.nil, core.f32)" "%x: core.f32"
          "%y = arith.add %x, %x : core.i32\nfunc.return") ∧
      Misplaces wideTarget
        (singleFunction "func.fn(core.nil, core.i32)" "%x: core.f32"
          "%y = arith.add %x, %x : core.f32\nfunc.return") ∧
      Misplaces wideTarget
        (singleFunction "func.fn(core.i1, core.i1)" "%x: core.i1" "func.return %x") ∧
      Misplaces wideTarget
        (singleFunction "func.fn(core.nil, core.i1)" "%x: core.i1"
          "func.call %x \x7bcallee = @f\x7d\nfunc.return") ∧
      Misplaces wideTarget
        (singleFunction "func.fn(core.nil, core.i1)" "%x: core.i1"
          "%y = arith.cmp_eq %x, %x : core.i1\nfunc.return") ∧
      Misplaces narrowTarget
        (singleFunction "func.fn(core.nil, core.ptr, core.i64)" "%p: core.ptr, %n: core.i64"
          "%q = mem.offset %p, %n \x7belem_type = core.i32\x7d : core.ptr\nfunc.return") :=
  ⟨misplaces_of_readsAs (readsAs_singleFunction (by decide +kernel)),
    misplaces_of_readsAs (readsAs_singleFunction (by decide +kernel)),
    misplaces_of_readsAs (readsAs_singleFunction (by decide +kernel)),
    misplaces_of_readsAs (readsAs_singleFunction (by decide +kernel)),
    misplaces_of_readsAs (readsAs_singleFunction (by decide +kernel)),
    misplaces_of_readsAs (readsAs_singleFunction (by decide +kernel)),
    misplaces_of_readsAs (readsAs_singleFunction (by decide +kernel))⟩

end Offload.Ptx
