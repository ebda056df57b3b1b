import Offload.Proofs.Device.Link

/-!
# What calls run in a linked module

A call names a function, and what it runs is the definition with that name, if its module
has one (`Module.body?`). When two modules are linked, every definition of either is in the
result, those of the second one under new names and numbers, and there are no others. So
what a link can change are the definitions that calls find (`CallsKept`):

* A call of the first module runs what it ran before. If that was nothing, it runs the
  external definition of the second module.
* A call of the second module runs what it ran before, under its new name. If that was
  nothing, it runs the definition of the first module, *be it internal or not*.

So the internal functions of the second module stay its own, as they get new names where
theirs are taken. Those of the first one do not: a call of the second module runs such a
function iff it names it and there is no definition for it in its own module.
-/

namespace Offload.Device

variable {dest src m : Module} {ρ : String → String} {δ : NodeRef → NodeRef}
  {f g : Function} {name : String}

@[simp]
theorem Function.isDeclaration_relocate : (f.relocate ρ δ).isDeclaration = f.isDeclaration :=
  List.isEmpty_map

namespace Module

/-- The definition that the calls of a name run. -/
def body? (m : Module) (name : String) : Option Function :=
  (m.function? name).filter (!·.isDeclaration)

/-- The definition of a name that other modules see. -/
def exported? (m : Module) (name : String) : Option Function :=
  (m.body? name).filter (·.linkage = .external)

theorem body?_eq_some : m.body? name = some g ↔
    m.function? name = some g ∧ g.isDeclaration = false := by
  simp [body?, Option.filter_eq_some_iff]

theorem body?_eq (h : m.function? name = some g) :
    m.body? name = if g.isDeclaration then none else some g := by
  rw [body?, h, Option.filter_some]
  cases g.isDeclaration <;> rfl

theorem exported?_eq_some : m.exported? name = some g ↔
    m.body? name = some g ∧ g.linkage = .external := by
  simp [exported?, Option.filter_eq_some_iff]

end Module

/-- What the calls of two modules run after the second one, under new names and numbers, has
    been linked into the first one. -/
structure CallsKept (dest src m : Module) (ρ : String → String) (δ : NodeRef → NodeRef) :
    Prop where
  /-- The definitions are those of the modules. -/
  bodies : ∀ h : Function, h.isDeclaration = false → (h ∈ m.functions ↔
    h ∈ dest.functions ∨ ∃ f ∈ src.functions, f.isDeclaration = false ∧ f.relocate ρ δ = h)
  /-- What the first module names runs as before, or is now defined by the second one. -/
  ofDest : ∀ name, (dest.function? name).isSome →
    m.body? name = (dest.body? name <|> (src.exported? name).map (·.relocate ρ δ))
  /-- What the second module names runs as before, or is now defined by the first one. -/
  ofSrc : ∀ name, (src.function? name).isSome →
    m.body? (ρ name) = ((src.body? name).map (·.relocate ρ δ) <|> dest.body? name)
  /-- No call of the first module names an internal function of the second one. -/
  hidden : ∀ f ∈ src.functions, f.linkage = .internal → f.isDeclaration = false →
    dest.function? (ρ f.name) = none
  /-- A call of the second module runs an internal function of the first one iff it names it
      and its own module does not define it. -/
  captured : ∀ g ∈ dest.functions, g.linkage = .internal → g.isDeclaration = false →
    ∀ name, (src.function? name).isSome →
      (m.body? (ρ name) = some g ↔ name = g.name ∧ src.body? name = none)

/-- A definition that does not clash is external, if its name is taken. -/
theorem Function.linkage_of_clashes (hbody : f.isDeclaration = false)
    (htaken : (dest.function? f.name).isSome) (hclash : f.clashes dest = false) :
    f.linkage = .external := by
  cases hlinkage : f.linkage with
  | external => rfl
  | internal => simp [clashes, hlinkage, hbody, htaken] at hclash

/-- A function whose new name is taken does not clash. -/
theorem clashes_of_taken (hf : f ∈ src.functions)
    (htaken : (dest.function? ((dest.newNames src).apply f.name)).isSome) :
    f.clashes dest = false := by
  by_contra hclash
  have hnew := newNames_apply_notMem (mem_newNames_keys.2 ⟨f, hf, by simpa using hclash, rfl⟩)
  obtain ⟨g, hg⟩ := Option.isSome_iff_exists.1 htaken
  obtain ⟨hmem, hname⟩ := Module.function?_mem hg
  exact hnew (List.mem_map.2 ⟨g, List.mem_append_left _ hmem, hname⟩)

namespace Merged

variable (hdest : (dest.functions.map (·.name)).Nodup) (hsrc : (src.functions.map (·.name)).Nodup)
  (hnone : ∀ f ∈ src.functions, dest.conflict? f = none)
  (hm : Merged dest src m (dest.newNames src).apply δ)

section

include hsrc hnone hm

/-- Under the new name of a function stands its own definition, or else that of the first
    module. -/
theorem body?_of_src (hf : f ∈ src.functions) :
    m.body? ((dest.newNames src).apply f.name) =
      ((if f.isDeclaration then none else some (f.relocate (dest.newNames src).apply δ)) <|>
        dest.body? ((dest.newNames src).apply f.name)) := by
  rw [Module.body?, Module.body?, hm.function?_of_src hsrc hf]
  cases hg : dest.function? ((dest.newNames src).apply f.name) with
  | none => cases hbody : f.isDeclaration <;> simp [hbody]
  | some g =>
    obtain ⟨-, hdeclared⟩ := conflict_free hsrc hnone hf hg
    cases hbody : f.isDeclaration with
    | true => simp [Function.or, hbody]
    | false =>
      have hother : g.isDeclaration = true := by simpa [hbody] using hdeclared
      simp [Function.or, hbody, hother]

theorem body?_src (hname : (src.function? name).isSome) :
    m.body? ((dest.newNames src).apply name) =
      ((src.body? name).map (·.relocate (dest.newNames src).apply δ) <|> dest.body? name) := by
  obtain ⟨f, hf⟩ := Option.isSome_iff_exists.1 hname
  obtain ⟨hmem, rfl⟩ := Module.function?_mem hf
  rw [hm.body?_of_src hsrc hnone hmem, Module.body?_eq hf]
  cases hbody : f.isDeclaration with
  | false => simp
  | true =>
    -- a declaration keeps its name
    have hclash : f.clashes dest = false := by simp [Function.clashes, hbody]
    rw [newNames_apply_of_not hsrc hmem hclash]
    simp

theorem body?_dest (hname : (dest.function? name).isSome) :
    m.body? name =
      (dest.body? name <|> (src.exported? name).map (·.relocate (dest.newNames src).apply δ)) := by
  obtain ⟨g, hg⟩ := Option.isSome_iff_exists.1 hname
  by_cases hmeets : ∃ f ∈ src.functions, (dest.newNames src).apply f.name = name
  · obtain ⟨f, hf, rfl⟩ := hmeets
    have hclash := clashes_of_taken hf hname
    obtain ⟨-, hdeclared⟩ := conflict_free hsrc hnone hf hg
    have hkept := newNames_apply_of_not hsrc hf hclash
    have hfound : src.function? f.name = some f := (Module.function?_eq_some hsrc).2 ⟨hf, rfl⟩
    rw [hm.body?_of_src hsrc hnone hf]
    rw [hkept] at hg hname ⊢
    cases hbody : f.isDeclaration with
    | true => simp [Module.exported?, Module.body?_eq hfound, hbody]
    | false =>
      have hother : g.isDeclaration = true := by simpa [hbody] using hdeclared
      have hlinkage := Function.linkage_of_clashes hbody hname hclash
      have hexported : src.exported? f.name = some f :=
        Module.exported?_eq_some.2 ⟨Module.body?_eq_some.2 ⟨hfound, hbody⟩, hlinkage⟩
      rw [hexported, Module.body?_eq hg, hother]
      simp
  · have hnew : ∀ f ∈ src.functions, (dest.newNames src).apply f.name ≠ name :=
      fun f hf heq => hmeets ⟨f, hf, heq⟩
    have hexported : src.exported? name = none := by
      by_contra hsome
      obtain ⟨f, hf⟩ := Option.ne_none_iff_exists'.1 hsome
      obtain ⟨hf, hlinkage⟩ := Module.exported?_eq_some.1 hf
      obtain ⟨hmem, rfl⟩ := Module.function?_mem (Module.body?_eq_some.1 hf).1
      exact hnew f hmem (newNames_apply_of_not hsrc hmem (by simp [Function.clashes, hlinkage]))
    rw [hexported, Module.body?, hm.function?_of_dest hsrc hnew, Module.body?]
    simp

end

include hdest hsrc hnone hm

/-- What calls run after a module has been put into another one. -/
theorem callsKept : CallsKept dest src m (dest.newNames src).apply δ where
  bodies h hbody := by
    constructor
    · intro hmem
      rw [hm.functions] at hmem
      refine (mem_mergeFunctions hmem).symm.imp_right fun hmem => ?_
      obtain ⟨f, hf, rfl⟩ := List.mem_map.1 hmem
      exact ⟨f, hf, by rwa [Function.isDeclaration_relocate] at hbody, rfl⟩
    · rintro (hmem | ⟨f, hf, hdefined, rfl⟩)
      · have hfound : dest.function? h.name = some h :=
          (Module.function?_eq_some hdest).2 ⟨hmem, rfl⟩
        have hruns := hm.body?_dest hsrc hnone (Option.isSome_of_eq_some hfound)
        rw [Module.body?_eq_some.2 ⟨hfound, hbody⟩] at hruns
        exact (Module.function?_mem (Module.body?_eq_some.1 hruns).1).1
      · exact hm.definition_mem hsrc hnone hf hdefined
  ofDest _ hname := hm.body?_dest hsrc hnone hname
  ofSrc _ hname := hm.body?_src hsrc hnone hname
  hidden f hf hlinkage hbody := by
    by_contra htaken
    have hclash := clashes_of_taken hf (Option.isSome_iff_ne_none.2 htaken)
    rw [newNames_apply_of_not hsrc hf hclash] at htaken
    have hexternal := Function.linkage_of_clashes hbody (Option.isSome_iff_ne_none.2 htaken) hclash
    rw [hlinkage] at hexternal
    cases hexternal
  captured g hg hlinkage hbody name hname := by
    have hfound : dest.function? g.name = some g := (Module.function?_eq_some hdest).2 ⟨hg, rfl⟩
    rw [hm.body?_src hsrc hnone hname]
    cases hsrcBody : src.body? name with
    | none =>
      constructor
      · intro hruns
        have hruns : dest.body? name = some g := by simpa using hruns
        exact ⟨(Module.function?_mem (Module.body?_eq_some.1 hruns).1).2.symm, rfl⟩
      · rintro ⟨rfl, -⟩
        simpa using Module.body?_eq_some.2 ⟨hfound, hbody⟩
    | some f =>
      refine iff_of_false (fun hruns => ?_) (fun h => nomatch h.2)
      -- two definitions would have one name
      obtain ⟨hf, hdefined⟩ := Module.body?_eq_some.1 hsrcBody
      obtain rfl : f.relocate (dest.newNames src).apply δ = g := by simpa using hruns
      obtain ⟨-, hdeclared⟩ := conflict_free hsrc hnone (Module.function?_mem hf).1 hfound
      rw [hdefined, hbody] at hdeclared
      simp at hdeclared

end Merged

namespace Module

/-- What calls run after a link that succeeds. A call of either module runs what it ran
    before, or what the other module defines if that was nothing, and the internal functions
    of the first module are among what it defines. -/
theorem linkInto_calls (hdest : dest.defects = []) (hsrc : src.defects = [])
    (h : dest.linkInto src = .ok (.ok (), m)) : ∃ ρ δ, CallsKept dest src m ρ δ := by
  rw [defects_eq_nil_iff] at hdest hsrc
  rw [linkInto] at h
  cases hconflict : src.functions.findSome? dest.conflict? with
  | some e =>
    rw [hconflict] at h
    cases h
  | none =>
    rw [hconflict] at h
    obtain ⟨m', hmerge, h⟩ := Outcome.bind_eq_ok.1 h
    cases h
    obtain ⟨δ, hm⟩ := merge_eq_ok hsrc.names hmerge
    have hnone := List.findSome?_eq_none_iff.1 hconflict
    exact ⟨_, δ, hm.callsKept hdest.names hsrc.names hnone⟩

/-! ### An instance -/

/-- A module with an internal function of a name that another one declares. -/
def hidingModule : Module where
  name := "hiding"
  functions := [caller "helper" .internal "helper" none]

/-- A module that calls a function that it only declares. -/
def callingModule : Module where
  name := "calling"
  functions := [.declaration "helper" .i32 [], caller "api" .external "helper" none]

/-- What they are linked to. -/
def capturedModule : Module where
  name := "hiding"
  functions := [caller "helper" .internal "helper" none, caller "api" .external "helper" none]

/-- The call of one module runs the internal function of the other. -/
theorem linkInto_calls_captured :
    hidingModule.defects = [] ∧ callingModule.defects = [] ∧
      hidingModule.linkInto callingModule = .ok (.ok (), capturedModule) ∧
      ∃ ρ : String → String,
        capturedModule.body? (ρ "helper") = some (caller "helper" .internal "helper" none) := by
  have hhiding : hidingModule.defects = [] := by decide +kernel
  have hcalling : callingModule.defects = [] := by decide +kernel
  have hlink : hidingModule.linkInto callingModule = .ok (.ok (), capturedModule) := rfl
  obtain ⟨ρ, δ, hkept⟩ := linkInto_calls hhiding hcalling hlink
  refine ⟨hhiding, hcalling, hlink, ρ, ?_⟩
  refine (hkept.captured (caller "helper" .internal "helper" none) ?_ rfl rfl "helper" rfl).2 ?_
  · exact List.mem_singleton_self _
  · exact ⟨rfl, rfl⟩

end Module

end Offload.Device
