import Offload.Proofs.Device.Naming
import Offload.Proofs.Device.Nodes
import Offload.Proofs.Device.WellFormed

/-!
# Linked modules are well formed

When two well-formed modules are linked, every name and every number in the result
means one thing again (`Module.link_wellFormed`). What carries the proof is where the
functions and nodes of either module are found afterwards:

* under every name of the first module there is a function that is called in the same
  way, and under every new name of the second one too (`Merged.dest_function?`,
  `Merged.src_function?`);
* every node of the first module keeps its number, and every node of the second one has
  its new number (`NodeTable.contains_append`).

With that each function fits into the result because it fits into its own module.
-/

namespace Offload.Device

/-! ## Merged functions -/

/-- The function with a name. -/
def lookupFunction (fs : List Function) (name : String) : Option Function :=
  fs.find? (·.name = name)

/-- The function that stays of one that is there and one that is put in its place. -/
def Function.or (g f : Function) : Function :=
  if g.isDeclaration && !f.isDeclaration then f else g

section Merge

variable {f g : Function} {fs src : List Function} {name : String}

theorem mergeFunction_cons : mergeFunction f (g :: fs) =
    if g.name = f.name then g.or f :: fs else g :: mergeFunction f fs := by
  rw [mergeFunction, Function.or]
  split
  · split <;> rfl
  · rfl

theorem Function.name_or (h : g.name = f.name) : (g.or f).name = f.name := by
  rw [Function.or]
  split
  · rfl
  · exact h

theorem lookupFunction_cons : lookupFunction (f :: fs) name =
    if f.name = name then some f else lookupFunction fs name := by
  by_cases h : f.name = name <;> simp [lookupFunction, h]

/-- Only what is found under the name of the function changes. -/
theorem lookupFunction_mergeFunction : lookupFunction (mergeFunction f fs) name =
    if f.name = name then some (((lookupFunction fs name).map (·.or f)).getD f)
    else lookupFunction fs name := by
  induction fs with
  | nil => simp [mergeFunction, lookupFunction]
  | cons g fs ih =>
    rw [mergeFunction_cons, lookupFunction_cons (f := g)]
    by_cases hsame : g.name = f.name
    · rw [if_pos hsame, lookupFunction_cons, Function.name_or hsame, hsame]
      by_cases hname : f.name = name
      · simp only [if_pos hname, Option.map_some, Option.getD_some]
      · simp only [if_neg hname]
    · rw [if_neg hsame, lookupFunction_cons, ih]
      by_cases hname : g.name = name
      · rw [if_pos hname, if_neg fun hf => hsame (hname.trans hf.symm), if_pos hname]
      · rw [if_neg hname, if_neg hname]

theorem names_mergeFunction : (mergeFunction f fs).map (·.name) =
    if f.name ∈ fs.map (·.name) then fs.map (·.name) else fs.map (·.name) ++ [f.name] := by
  induction fs with
  | nil => rfl
  | cons g fs ih =>
    rw [mergeFunction_cons]
    by_cases hsame : g.name = f.name
    · rw [if_pos hsame, if_pos (by simp [hsame]), List.map_cons, Function.name_or hsame,
        List.map_cons, hsame]
    · rw [if_neg hsame, List.map_cons, ih]
      have hmem : f.name ∈ (g :: fs).map (·.name) ↔ f.name ∈ fs.map (·.name) := by
        simp [Ne.symm hsame]
      simp only [hmem]
      split <;> rfl

theorem nodup_mergeFunction (h : (fs.map (·.name)).Nodup) :
    ((mergeFunction f fs).map (·.name)).Nodup := by
  rw [names_mergeFunction]
  split
  case isTrue => exact h
  case isFalse hnew =>
    refine List.nodup_append.2 ⟨h, List.nodup_singleton _, ?_⟩
    rintro name hname _ hlast rfl
    rw [List.mem_singleton.1 hlast] at hname
    exact hnew hname

/-- The functions of a list among those of another one. -/
def mergeFunctions (src fs : List Function) : List Function :=
  src.foldl (fun fs f => mergeFunction f fs) fs

theorem nodup_mergeFunctions (h : (fs.map (·.name)).Nodup) :
    ((mergeFunctions src fs).map (·.name)).Nodup := by
  induction src generalizing fs with
  | nil => exact h
  | cons f src ih => exact ih (nodup_mergeFunction h)

/-- Under every name stands what was there, or was put in its place. -/
theorem lookupFunction_mergeFunctions (h : (src.map (·.name)).Nodup) :
    lookupFunction (mergeFunctions src fs) name =
      match lookupFunction src name with
      | none => lookupFunction fs name
      | some f => some (((lookupFunction fs name).map (·.or f)).getD f) := by
  induction src generalizing fs with
  | nil => rfl
  | cons f src ih =>
    rw [List.map_cons, List.nodup_cons] at h
    rw [mergeFunctions, List.foldl_cons, ← mergeFunctions, ih h.2, lookupFunction_cons,
      lookupFunction_mergeFunction]
    by_cases hname : f.name = name
    · have hnone : lookupFunction src name = none := by
        refine List.find?_eq_none.2 fun g hg heq => h.1 ?_
        exact List.mem_map.2 ⟨g, hg, (of_decide_eq_true heq).trans hname.symm⟩
      simp only [hnone, if_pos hname]
    · simp only [if_neg hname]

theorem mem_mergeFunction (h : g ∈ mergeFunction f fs) : g = f ∨ g ∈ fs := by
  induction fs with
  | nil => exact .inl (List.mem_singleton.1 h)
  | cons k fs ih =>
    rw [mergeFunction] at h
    split at h
    · split at h
      · exact (List.mem_cons.1 h).imp_right (List.mem_cons_of_mem k)
      · exact .inr h
    · obtain rfl | h := List.mem_cons.1 h
      · exact .inr List.mem_cons_self
      · exact (ih h).imp_right (List.mem_cons_of_mem k)

theorem mem_mergeFunctions (h : g ∈ mergeFunctions src fs) : g ∈ src ∨ g ∈ fs := by
  induction src generalizing fs with
  | nil => exact .inr h
  | cons f src ih =>
    obtain h | h := ih h
    · exact .inl (List.mem_cons_of_mem f h)
    · obtain rfl | h := mem_mergeFunction h
      · exact .inl List.mem_cons_self
      · exact .inr h

end Merge

/-! ## Merged lists -/

/-- The nodes of a list stand in it before, or are appended to it. -/
theorem mem_appendToList {name : String} {nodes : List NodeRef} {lists : List NodeList}
    {l : NodeList} {r : NodeRef} (hl : l ∈ Module.appendToList.go name nodes lists)
    (hr : r ∈ l.nodes) : r ∈ nodes ∨ ∃ k ∈ lists, r ∈ k.nodes := by
  induction lists with
  | nil =>
    rw [List.mem_singleton.1 hl] at hr
    exact .inl hr
  | cons k lists ih =>
    rw [Module.appendToList.go] at hl
    split at hl
    · obtain rfl | hl := List.mem_cons.1 hl
      · obtain hr | hr := List.mem_append.1 hr
        · exact .inr ⟨k, List.mem_cons_self, hr⟩
        · exact .inl hr
      · exact .inr ⟨l, List.mem_cons_of_mem k hl, hr⟩
    · obtain rfl | hl := List.mem_cons.1 hl
      · exact .inr ⟨l, List.mem_cons_self, hr⟩
      · obtain hr | ⟨k', hk, hr⟩ := ih hl
        · exact .inl hr
        · exact .inr ⟨k', List.mem_cons_of_mem k hk, hr⟩

theorem mem_appendToLists {m : Module} {lists : List NodeList} {l : NodeList} {r : NodeRef}
    (hl : l ∈ (lists.foldl (fun m l => m.appendToList l.name l.nodes) m).lists)
    (hr : r ∈ l.nodes) : (∃ k ∈ m.lists, r ∈ k.nodes) ∨ ∃ k ∈ lists, r ∈ k.nodes := by
  induction lists generalizing m with
  | nil => exact .inl ⟨l, hl, hr⟩
  | cons k lists ih =>
    rw [List.foldl_cons] at hl
    obtain ⟨k', hk', hr'⟩ | ⟨k', hk', hr'⟩ := ih hl
    · obtain hr' | hbefore := mem_appendToList hk' hr'
      · exact .inr ⟨k, List.mem_cons_self, hr'⟩
      · exact .inl hbefore
    · exact .inr ⟨k', List.mem_cons_of_mem k hk', hr'⟩

/-! ## Merged modules -/

/-- What is in a module after another one has been put into it, under new names and
    numbers. -/
structure Merged (dest src m : Module) (ρ : String → String) (δ : NodeRef → NodeRef) : Prop where
  functions : m.functions = mergeFunctions (src.functions.map (·.relocate ρ δ)) dest.functions
  lists : ∀ l ∈ m.lists, ∀ r ∈ l.nodes,
    (∃ k ∈ dest.lists, r ∈ k.nodes) ∨ ∃ k ∈ src.lists, r ∈ k.nodes.map δ
  contains : ∀ r, m.nodes.contains r = true ↔
    dest.nodes.contains r = true ∨ ∃ s, src.nodes.contains s = true ∧ r = δ s
  nodes : ∀ node ∈ m.nodes.nodes, node ∈ dest.nodes.nodes ∨ ∃ old ∈ src.nodes.nodes,
    node.references = old.references.map δ ∧ node.functions = old.functions.map ρ

variable {dest src m : Module} {ρ : String → String} {δ : NodeRef → NodeRef}

theorem merged_of_relocates {src' : Module} (hr : src.Relocates ρ δ src')
    (hfunctions : m.functions = mergeFunctions src'.functions dest.functions)
    (hlists : m.lists = (src'.lists.foldl (fun m l => m.appendToList l.name l.nodes) dest).lists)
    (hnodes : m.nodes = dest.nodes.append src'.nodes) : Merged dest src m ρ δ := by
  obtain ⟨change, href, hfun, hchange⟩ := hr.nodes
  refine ⟨by rw [hfunctions, hr.functions], ?_, ?_, ?_⟩
  · rw [hlists, hr.lists]
    intro l hl r hrl
    refine (mem_appendToLists hl hrl).imp_right ?_
    rintro ⟨k', hk', hmem⟩
    obtain ⟨k, hk, rfl⟩ := List.mem_map.1 hk'
    exact ⟨k, hk, hmem⟩
  · intro r
    rw [hnodes]
    refine SortedMap.contains_append.trans (or_congr_right ?_)
    rw [SortedMap.contains_iff, hchange]
    constructor
    · rintro ⟨e', he', rfl⟩
      obtain ⟨e, he, rfl⟩ := List.mem_map.1 he'
      exact ⟨e.1, SortedMap.contains_iff.2 ⟨e, he, rfl⟩, rfl⟩
    · rintro ⟨s, hs, rfl⟩
      obtain ⟨e, he, rfl⟩ := SortedMap.contains_iff.1 hs
      exact ⟨_, List.mem_map.2 ⟨e, he, rfl⟩, rfl⟩
  · rw [hnodes]
    intro node hnode
    obtain ⟨e', he', rfl⟩ := List.mem_map.1 hnode
    obtain he' | ⟨he', -⟩ := SortedMap.mem_append.1 he'
    · rw [hchange] at he'
      obtain ⟨e, he, rfl⟩ := List.mem_map.1 he'
      exact .inr ⟨e.2.node, List.mem_map.2 ⟨e, he, rfl⟩, href _, hfun _⟩
    · exact .inl (List.mem_map_of_mem he')

/-- A function that is not internal, or does not clash, keeps its name. -/
theorem newNames_apply_of_not {f : Function} (h : (src.functions.map (·.name)).Nodup)
    (hf : f ∈ src.functions) (hclash : f.clashes dest = false) :
    (dest.newNames src).apply f.name = f.name := by
  refine Renaming.apply_of_notMem fun hmem => ?_
  obtain ⟨g, hg, hgclash, hname⟩ := mem_newNames_keys.1 hmem
  rw [List.inj_on_of_nodup_map h hg hf hname, hclash] at hgclash
  cases hgclash

/-- The functions of a module get their new names. -/
theorem Module.relocates_newNames (hsrc : (src.functions.map (·.name)).Nodup) :
    src.Relocates (dest.newNames src).apply id (src.rename (dest.newNames src)) := by
  refine relocates_rename fun f hf hlinkage => newNames_apply_of_not hsrc hf ?_
  simp [Function.clashes, hlinkage]

/-- A merge puts a module, under new names and numbers, into another one. -/
theorem Module.merge_relocates (hsrc : (src.functions.map (·.name)).Nodup)
    (h : dest.merge src = .ok m) : ∃ src' first, dest.nodes.next = .ok first ∧
      src.Relocates (dest.newNames src).apply (·.raise first.number) src' ∧
      m.functions = mergeFunctions src'.functions dest.functions ∧
      m.lists = (src'.lists.foldl (fun m l => m.appendToList l.name l.nodes) dest).lists ∧
      m.nodes = dest.nodes.append src'.nodes := by
  have hrename : src.Relocates (dest.newNames src).apply id (src.rename (dest.newNames src)) :=
    relocates_newNames hsrc
  obtain ⟨first, hfirst, h⟩ := Outcome.bind_eq_ok.1 h
  dsimp only at h
  split at h
  · rename_i hzero
    obtain ⟨src', hsrc', h⟩ := Outcome.bind_eq_ok.1 h
    cases hsrc'
    cases h
    refine ⟨_, first, hfirst, ?_, rfl, rfl, rfl⟩
    rw [hzero, NodeRef.raise_zero]
    exact hrename
  · obtain ⟨src', hsrc', h⟩ := Outcome.bind_eq_ok.1 h
    cases h
    exact ⟨src', first, hfirst, hrename.trans (relocates_renumber hsrc'), rfl, rfl, rfl⟩

/-- What a merge comes to. -/
theorem Module.merge_eq_ok (hsrc : (src.functions.map (·.name)).Nodup)
    (h : dest.merge src = .ok m) : ∃ δ, Merged dest src m (dest.newNames src).apply δ := by
  obtain ⟨src', first, -, hrelocates, hfunctions, hlists, hnodes⟩ := merge_relocates hsrc h
  exact ⟨_, merged_of_relocates hrelocates hfunctions hlists hnodes⟩

/-! ## What a module without conflicts leads to -/

theorem Function.sameSignature_refl (f : Function) : f.sameSignature f = true := by
  simp [sameSignature]

theorem Function.sameSignature_symm {f g : Function} (h : f.sameSignature g = true) :
    g.sameSignature f = true := by
  simp only [sameSignature, Bool.and_eq_true, decide_eq_true_eq] at h ⊢
  exact ⟨h.1.symm, h.2.symm⟩

/-- A function that is in no conflict clashes, or is called like that with its name and is
    not another definition of it. -/
theorem Module.conflict?_eq_none {f g : Function} (h : dest.conflict? f = none)
    (hg : dest.function? f.name = some g) (hclash : f.clashes dest = false) :
    f.sameSignature g = true ∧ (f.isDeclaration = true ∨ g.isDeclaration = true) := by
  rw [Module.conflict?, hg] at h
  simp only [Function.clashes, hg, Option.isSome_some, Bool.and_true] at hclash
  simp only [hclash, Bool.false_eq_true, if_false] at h
  split at h
  · cases h
  · split at h
    · cases h
    case isFalse.isFalse hsame hdefined =>
      refine ⟨by simpa using hsame, ?_⟩
      cases hf : f.isDeclaration with
      | true => exact .inl rfl
      | false =>
        rw [hf] at hdefined
        exact .inr (by simpa using hdefined)

section Linked

variable {f g : Function} {name : String}

theorem Function.or_eq (g f : Function) : g.or f = g ∨ g.or f = f := by
  rw [Function.or]
  split
  · exact .inr rfl
  · exact .inl rfl

theorem nodup_relocated (hsrc : (src.functions.map (·.name)).Nodup) :
    ((src.functions.map (·.relocate (dest.newNames src).apply δ)).map (·.name)).Nodup := by
  rw [List.map_map]
  refine hsrc.of_map.map_on fun f hf g hg h => ?_
  exact List.inj_on_of_nodup_map hsrc hf hg (newNames_apply_injOn hf hg h)

/-- A name that is taken is not new: what has it in both modules agrees. -/
theorem conflict_free (hsrc : (src.functions.map (·.name)).Nodup)
    (hnone : ∀ f ∈ src.functions, dest.conflict? f = none) (hf : f ∈ src.functions)
    (hg : dest.function? ((dest.newNames src).apply f.name) = some g) :
    f.sameSignature g = true ∧ (f.isDeclaration = true ∨ g.isDeclaration = true) := by
  have hclash : f.clashes dest = false := by
    by_contra hclash
    have hnew := newNames_apply_notMem
      (mem_newNames_keys.2 ⟨f, hf, by simpa using hclash, rfl⟩)
    obtain ⟨hmem, hname⟩ := Module.function?_mem hg
    exact hnew (List.mem_map.2 ⟨g, List.mem_append_left _ hmem, hname⟩)
  rw [newNames_apply_of_not hsrc hf hclash] at hg
  exact Module.conflict?_eq_none (hnone f hf) hg hclash

namespace Merged

variable (hsrc : (src.functions.map (·.name)).Nodup)
  (hnone : ∀ f ∈ src.functions, dest.conflict? f = none)
  (hm : Merged dest src m (dest.newNames src).apply δ)

include hsrc hm

/-- Under the new name of a function stands that function, or what it was merged with. -/
theorem function?_of_src (hf : f ∈ src.functions) :
    m.function? ((dest.newNames src).apply f.name) =
      some (((dest.function? ((dest.newNames src).apply f.name)).map
        (·.or (f.relocate (dest.newNames src).apply δ))).getD
          (f.relocate (dest.newNames src).apply δ)) := by
  have hfound : lookupFunction (src.functions.map (·.relocate (dest.newNames src).apply δ))
      ((dest.newNames src).apply f.name) = some (f.relocate (dest.newNames src).apply δ) :=
    find?_name (nodup_relocated hsrc) (List.mem_map_of_mem hf)
  rw [Module.function?, ← lookupFunction, hm.functions,
    lookupFunction_mergeFunctions (nodup_relocated hsrc), hfound]
  rfl

/-- Under other names stands what was there before. -/
theorem function?_of_dest
    (h : ∀ f ∈ src.functions, (dest.newNames src).apply f.name ≠ name) :
    m.function? name = dest.function? name := by
  have hnone : lookupFunction (src.functions.map (·.relocate (dest.newNames src).apply δ)) name =
      none := by
    refine List.find?_eq_none.2 fun f' hf' hname => ?_
    obtain ⟨f, hf, rfl⟩ := List.mem_map.1 hf'
    exact h f hf (of_decide_eq_true hname)
  rw [Module.function?, ← lookupFunction, hm.functions,
    lookupFunction_mergeFunctions (nodup_relocated hsrc), hnone]
  rfl

include hnone

/-- What was called before is called in the same way. -/
theorem dest_function? (hg : dest.function? name = some g) :
    ∃ g', m.function? name = some g' ∧ g.sameSignature g' = true := by
  by_cases hname : ∃ f ∈ src.functions, (dest.newNames src).apply f.name = name
  · obtain ⟨f, hf, rfl⟩ := hname
    obtain ⟨hsame, -⟩ := conflict_free hsrc hnone hf hg
    refine ⟨_, hm.function?_of_src hsrc hf, ?_⟩
    rw [hg, Option.map_some, Option.getD_some]
    obtain hor | hor := Function.or_eq g (f.relocate (dest.newNames src).apply δ)
    · rw [hor]
      exact g.sameSignature_refl
    · rw [hor]
      exact Function.sameSignature_symm hsame
  · refine ⟨g, ?_, g.sameSignature_refl⟩
    rw [hm.function?_of_dest hsrc fun f hf heq => hname ⟨f, hf, heq⟩, hg]

/-- What was called by its old name is called in the same way by its new name. -/
theorem src_function? (hf : src.function? name = some f) :
    ∃ g, m.function? ((dest.newNames src).apply name) = some g ∧ f.sameSignature g = true := by
  obtain ⟨hmem, rfl⟩ := Module.function?_mem hf
  refine ⟨_, hm.function?_of_src hsrc hmem, ?_⟩
  cases hg : dest.function? ((dest.newNames src).apply f.name) with
  | none => exact f.sameSignature_refl
  | some g =>
    obtain ⟨hsame, -⟩ := conflict_free hsrc hnone hmem hg
    rw [Option.map_some, Option.getD_some]
    obtain hor | hor := Function.or_eq g (f.relocate (dest.newNames src).apply δ)
    · rwa [hor]
    · rw [hor]
      exact f.sameSignature_refl

/-- A definition is there under its new name. -/
theorem definition_mem (hf : f ∈ src.functions) (hbody : f.isDeclaration = false) :
    f.relocate (dest.newNames src).apply δ ∈ m.functions := by
  have hfound : m.function? ((dest.newNames src).apply f.name) =
      some (f.relocate (dest.newNames src).apply δ) := by
    rw [hm.function?_of_src hsrc hf]
    cases hg : dest.function? ((dest.newNames src).apply f.name) with
    | none => rfl
    | some g =>
      obtain ⟨-, hdeclared⟩ := conflict_free hsrc hnone hf hg
      have hother : g.isDeclaration = true := by simpa [hbody] using hdeclared
      have hsame : (f.relocate (dest.newNames src).apply δ).isDeclaration = false := by
        simpa [Function.isDeclaration, Function.relocate, Function.mapInstructions] using hbody
      rw [Option.map_some, Option.getD_some, Function.or, hother, hsame]
      rfl
  exact (Module.function?_mem hfound).1

theorem wellFormed (hdest : dest.WellFormed) (hwell : src.WellFormed) : m.WellFormed := by
  have hdestNodes : ∀ r, dest.nodes.contains r = true → m.nodes.contains r = true :=
    fun r hr => (hm.contains r).2 (.inl hr)
  have hsrcNodes : ∀ r, src.nodes.contains r = true → m.nodes.contains (δ r) = true :=
    fun r hr => (hm.contains _).2 (.inr ⟨r, hr, rfl⟩)
  have hfunctions : ∀ g ∈ m.functions, g ∈ dest.functions ∨
      ∃ f ∈ src.functions, f.relocate (dest.newNames src).apply δ = g := by
    intro g hg
    rw [hm.functions] at hg
    exact (mem_mergeFunctions hg).symm.imp_right List.mem_map.1
  refine ⟨?_, ?_, ?_, ?_, ?_, ?_⟩
  · rw [hm.functions]
    exact nodup_mergeFunctions hdest.names
  · intro g hg r hr
    obtain hg | ⟨f, hf, rfl⟩ := hfunctions g hg
    · exact hdestNodes r (hdest.debug g hg r hr)
    · obtain ⟨s, hs, rfl⟩ := Option.map_eq_some_iff.1 hr
      exact hsrcNodes s (hwell.debug f hf s hs)
  · intro g hg hbody
    obtain hg | ⟨f, hf, rfl⟩ := hfunctions g hg
    · refine (hdest.fits g hg hbody).mono ?_ hdestNodes
      exact fun _ _ name _ k hk => hm.dest_function? hsrc hnone hk
    · have hdefined : f.isDeclaration = false := by
        simpa [Function.isDeclaration, Function.relocate, Function.mapInstructions] using hbody
      refine (hwell.fits f hf hdefined).relocate ?_ hsrcNodes
      exact fun _ _ name _ k hk => hm.src_function? hsrc hnone hk
  · intro l hl r hr
    obtain ⟨k, hk, hr⟩ | ⟨k, hk, hr⟩ := hm.lists l hl r hr
    · exact hdestNodes r (hdest.lists k hk r hr)
    · obtain ⟨s, hs, rfl⟩ := List.mem_map.1 hr
      exact hsrcNodes s (hwell.lists k hk s hs)
  · intro node hnode r hr
    obtain hnode | ⟨old, hold, href, -⟩ := hm.nodes node hnode
    · exact hdestNodes r (hdest.references node hnode r hr)
    · rw [href] at hr
      obtain ⟨s, hs, rfl⟩ := List.mem_map.1 hr
      exact hsrcNodes s (hwell.references old hold s hs)
  · intro node hnode name hname
    obtain hnode | ⟨old, hold, -, hfun⟩ := hm.nodes node hnode
    · obtain ⟨g, hg⟩ := Option.isSome_iff_exists.1 (hdest.targets node hnode name hname)
      obtain ⟨g', hg', -⟩ := hm.dest_function? hsrc hnone hg
      rw [hg']
      rfl
    · rw [hfun] at hname
      obtain ⟨before, hbefore, rfl⟩ := List.mem_map.1 hname
      obtain ⟨f, hf⟩ := Option.isSome_iff_exists.1 (hwell.targets old hold before hbefore)
      obtain ⟨g, hg, -⟩ := hm.src_function? hsrc hnone hf
      rw [hg]
      rfl

end Merged

end Linked

/-! ## Linking -/

namespace Module

/-- A link that succeeds leads to a module without defects, in which every function of the
    first module is called as before, and every definition of the second one is there, its
    references following the new names and numbers, under its own name or one that no
    function had. A link that fails leaves the module as it was, because one of the
    functions is in conflict with it. -/
theorem linkInto_outcome (hdest : dest.defects = []) (hsrc : src.defects = []) :
    (∀ m, dest.linkInto src = .ok (.ok (), m) →
      m.defects = [] ∧
      (∀ g ∈ dest.functions, ∃ g' ∈ m.functions, g'.name = g.name ∧ g.sameSignature g' = true) ∧
      ∃ (ρ : String → String) (δ : NodeRef → NodeRef),
        ∀ f ∈ src.functions, f.isDeclaration = false → f.relocate ρ δ ∈ m.functions ∧
          (ρ f.name = f.name ∨ ρ f.name ∉ (dest.functions ++ src.functions).map (·.name))) ∧
    ∀ e m, dest.linkInto src = .ok (.error e, m) →
      m = dest ∧ ∃ f ∈ src.functions, dest.conflict? f = some e := by
  rw [defects_eq_nil_iff] at hdest hsrc
  rw [linkInto]
  cases hconflict : src.functions.findSome? dest.conflict? with
  | some e =>
    constructor
    · intro m h
      cases h
    · intro e' m h
      cases h
      exact ⟨rfl, List.exists_of_findSome?_eq_some hconflict⟩
  | none =>
    have hnone : ∀ f ∈ src.functions, dest.conflict? f = none :=
      List.findSome?_eq_none_iff.1 hconflict
    constructor
    · intro m h
      obtain ⟨m', hmerge, h⟩ := Outcome.bind_eq_ok.1 h
      cases h
      obtain ⟨δ, hm⟩ := merge_eq_ok hsrc.names hmerge
      refine ⟨defects_eq_nil_iff.2 (hm.wellFormed hsrc.names hnone hdest hsrc), ?_,
        (dest.newNames src).apply, δ, ?_⟩
      · intro g hg
        obtain ⟨g', hg', hsame⟩ :=
          hm.dest_function? hsrc.names hnone ((function?_eq_some hdest.names).2 ⟨hg, rfl⟩)
        obtain ⟨hmem, hname⟩ := function?_mem hg'
        exact ⟨g', hmem, hname, hsame⟩
      · intro f hf hbody
        refine ⟨hm.definition_mem hsrc.names hnone hf hbody, ?_⟩
        cases hclash : f.clashes dest with
        | false => exact .inl (newNames_apply_of_not hsrc.names hf hclash)
        | true =>
          exact .inr (newNames_apply_notMem (mem_newNames_keys.2 ⟨f, hf, hclash, rfl⟩))
    · intro e m h
      obtain ⟨m', -, h⟩ := Outcome.bind_eq_ok.1 h
      cases h

/-! ### An instance -/

/-- A function that calls another one and returns its answer. -/
def caller (name : String) (linkage : Linkage) (callee : String) (debug : Option NodeRef) :
    Function where
  name
  linkage
  returnType := .i32
  parameters := []
  blocks := [⟨"entry",
    [{ result := some "x", action := .call .i32 callee [], debug },
      { result := none, action := .ret (some (.i32, .value "x")) }]⟩]

/-- A module with a function `helper` of its own, which calls a function that it only
    declares. -/
def sampleDest : Module where
  name := "dest"
  functions := [.declaration "exported" .i32 [], caller "helper" .internal "exported" (some ⟨1⟩)]
  lists := [⟨"all", [⟨0⟩]⟩]
  nodes := .ofList [(⟨0⟩, ⟨false, .tuple [.function "helper", .node ⟨1⟩]⟩),
    (⟨1⟩, ⟨true, .tuple [.node ⟨0⟩]⟩)]

/-- A module that defines that function with a `helper` too. -/
def sampleSrc : Module where
  name := "src"
  functions := [caller "helper" .internal "helper" none,
    caller "exported" .external "helper" (some ⟨0⟩)]
  lists := [⟨"all", [⟨1⟩]⟩]
  nodes := .ofList [(⟨0⟩, ⟨false, .record "DILocation" [("scope", "!1")]⟩),
    (⟨1⟩, ⟨false, .tuple [.function "helper"]⟩)]

/-- What they are linked to. -/
def sampleLinked : Module where
  name := "dest"
  functions := [caller "exported" .external "helper.1" (some ⟨2⟩),
    caller "helper" .internal "exported" (some ⟨1⟩), caller "helper.1" .internal "helper.1" none]
  lists := [⟨"all", [⟨0⟩, ⟨3⟩]⟩]
  nodes := .ofList [(⟨0⟩, ⟨false, .tuple [.function "helper", .node ⟨1⟩]⟩),
    (⟨1⟩, ⟨true, .tuple [.node ⟨0⟩]⟩),
    (⟨2⟩, ⟨false, .record "DILocation" [("scope", "!3")]⟩),
    (⟨3⟩, ⟨false, .tuple [.function "helper.1"]⟩)]

/-- The definition takes the place of the declaration, and calls what was renamed. -/
theorem linkInto_outcome_sample :
    sampleDest.defects = [] ∧ sampleSrc.defects = [] ∧
      sampleDest.linkInto sampleSrc = .ok (.ok (), sampleLinked) ∧ sampleLinked.defects = [] := by
  have hdest : sampleDest.defects = [] := by decide +kernel
  have hsrc : sampleSrc.defects = [] := by decide +kernel
  have hlink : sampleDest.linkInto sampleSrc = .ok (.ok (), sampleLinked) := rfl
  exact ⟨hdest, hsrc, hlink, ((linkInto_outcome hdest hsrc).1 sampleLinked hlink).1⟩

end Module

end Offload.Device
