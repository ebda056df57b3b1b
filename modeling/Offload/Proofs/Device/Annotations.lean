import Offload.Device.Library
import Offload.Proofs.Device.CleanUp
import Offload.Proofs.Device.Link
import Offload.Proofs.Position

/-!
# Annotations

A kernel is a function that is defined and seen from outside, and that a node says to be
one, which the list of annotations has (`Module.Launches`). Linking keeps the kernels of the module
that is linked into (`Launches.merge`), and makes no function a kernel but those that an annotation
of one of the modules says to be one (`kernels_merge`).
-/

namespace Offload.Device

/-! ## Tables of nodes -/

namespace NodeTable

variable {t : NodeTable} {s : NodeRef} {e : NodeRef × NodeDef}

/-- The next number is zero, or comes right after the largest one. -/
theorem next_cases (t : NodeTable) : t.entries = [] ∧ t.next = .ok ⟨0⟩ ∨
    ∃ last, t.contains last ∧ (∀ r, t.contains r → r.number.toNat ≤ last.number.toNat) ∧
      t.next = last.shift 1 := by
  cases hlast : t.entries.getLast? with
  | none => exact .inl ⟨List.getLast?_eq_none_iff.1 hlast, by rw [next, hlast]⟩
  | some e =>
    obtain ⟨before, hsplit⟩ := List.getLast?_eq_some_iff.1 hlast
    have hmem : e ∈ t.entries := by simp [hsplit]
    refine .inr ⟨e.1, SortedMap.contains_iff.2 ⟨e, hmem, rfl⟩, fun r hr => ?_, by rw [next, hlast]⟩
    obtain ⟨x, hx, rfl⟩ := SortedMap.contains_iff.1 hr
    have hordered := t.ordered
    rw [hsplit, List.pairwise_append] at hordered
    rw [hsplit, List.mem_append, List.mem_singleton] at hx
    obtain hx | rfl := hx
    · exact Nat.le_of_lt (hordered.2.2 x hx e (List.mem_singleton_self e))
    · exact Nat.le_refl _

/-- The next number comes after all those in the table. -/
theorem lt_next (hnext : t.next = .ok s) (he : e ∈ t.entries) :
    e.1.number.toNat < s.number.toNat := by
  obtain ⟨hnil, -⟩ | ⟨last, -, hle, hshift⟩ := t.next_cases
  · rw [hnil] at he
    cases he
  · rw [NodeRef.toNat_of_shift (hshift.symm.trans hnext)]
    exact Nat.lt_succ_of_le (hle e.1 (SortedMap.contains_iff.2 ⟨e, he, rfl⟩))

end NodeTable

/-! ## Lists of nodes -/

namespace Module

variable {m : Module} {name : String} {nodes : List NodeRef} {r : NodeRef}

/-- The nodes in the list with a name. -/
def listed (m : Module) (name : String) : List NodeRef := ((m.list? name).map (·.nodes)).getD []

theorem mem_listed : r ∈ m.listed name ↔ ∃ l, m.list? name = some l ∧ r ∈ l.nodes := by
  rw [listed]
  cases m.list? name <;> simp

theorem listed_congr {m' : Module} (h : m'.lists = m.lists) : m'.listed name = m.listed name := by
  rw [listed, listed, list?, list?, h]

theorem listed_appendToList (m : Module) (other : String) (nodes : List NodeRef) :
    (m.appendToList other nodes).listed name =
      m.listed name ++ if other = name then nodes else [] := by
  have key (ls : List NodeList) :
      (((appendToList.go other nodes ls).find? (·.name = name)).map (·.nodes)).getD [] =
        ((ls.find? (·.name = name)).map (·.nodes)).getD [] ++
          if other = name then nodes else [] := by
    induction ls with
    | nil => by_cases h : other = name <;> simp [appendToList.go, h]
    | cons l ls ih =>
      rw [appendToList.go]
      by_cases hl : l.name = other
      · rw [if_pos hl]
        by_cases h : other = name
        · simp [hl, h]
        · have : l.name ≠ name := fun e => h (hl.symm.trans e)
          simp [h, this]
      · rw [if_neg hl]
        by_cases h : l.name = name
        · have : other ≠ name := fun e => hl (h.trans e.symm)
          simp [h, this]
        · simpa [List.find?_cons, h] using ih
  exact key m.lists

theorem listed_appendToLists (m : Module) (ls : List NodeList) :
    (ls.foldl (fun m l => m.appendToList l.name l.nodes) m).listed name =
      m.listed name ++ (ls.filter (·.name = name)).flatMap (·.nodes) := by
  induction ls generalizing m with
  | nil => simp
  | cons l ls ih =>
    rw [List.foldl_cons, ih, listed_appendToList, List.append_assoc]
    by_cases h : l.name = name <;> simp [h]

theorem kernels_eq : m.kernels =
    (m.listed annotations).filterMap fun r => (m.node? r).bind kernel? := by
  rw [kernels, listed]
  cases m.list? annotations <;> rfl

/-! ## Kernels -/

/-- A function is a kernel by the node with a number: it is defined and seen from outside, and the
    node is an annotation that says so. -/
structure Launches (m : Module) (function : String) (r : NodeRef) : Prop where
  defined : ∃ f ∈ m.functions, f.name = function ∧ f.isDeclaration = false ∧ f.linkage = .external
  listed : r ∈ m.listed annotations
  node : m.node? r = some (kernelNode function)

theorem Launches.mem_kernels {function : String} (h : m.Launches function r) :
    function ∈ m.kernels := by
  rw [kernels_eq]
  exact List.mem_filterMap.2 ⟨r, h.listed, by rw [h.node]; rfl⟩

/-- Some annotation says that a function is a kernel, in whichever of the lists with the name of
    that of the annotations it stands. -/
def Annotates (m : Module) (function : String) : Prop :=
  ∃ l ∈ m.lists, l.name = annotations ∧ ∃ r ∈ l.nodes, ∃ node,
    m.node? r = some node ∧ kernel? node = some function

/-! ## Raised modules -/

theorem kernel?_mapFunctions (ρ : String → String) (node : Node) :
    kernel? (node.mapFunctions ρ) = (kernel? node).map ρ := by
  cases node with
  | record name fields => rfl
  | tuple parts =>
    rcases parts with - | ⟨first, - | ⟨second, rest⟩⟩
    · rfl
    · cases first <;> rfl
    · cases first with
      | function name =>
        cases second with
        | text kind =>
          simp only [Node.mapFunctions, List.map_cons, NodeOperand.mapFunction, kernel?]
          split <;> rfl
        | _ => rfl
      | _ => rfl

theorem kernel?_renumber (δ : NodeRef → NodeRef) (node : Node) :
    kernel? (node.renumber δ) = kernel? node := by
  cases node with
  | record name fields => rfl
  | tuple parts =>
    rcases parts with - | ⟨first, - | ⟨second, rest⟩⟩
    · rfl
    · cases first <;> rfl
    · cases first with
      | function name => cases second <;> rfl
      | _ => rfl

/-- What linking makes of the metadata of a module before it puts it into another one: the numbers
    are raised, and functions have new names. -/
structure Raised (src src' : Module) (ρ : String → String) (n : Nat) : Prop where
  entries : ∀ e' ∈ src'.nodes.entries, ∃ e ∈ src.nodes.entries,
    e'.1.number.toNat = e.1.number.toNat + n ∧ kernel? e'.2.node = (kernel? e.2.node).map ρ
  lists : ∀ l' ∈ src'.lists, ∃ l ∈ src.lists, l.name = l'.name ∧
    ∀ r' ∈ l'.nodes, ∃ r ∈ l.nodes, r'.number.toNat = r.number.toNat + n

theorem raised_rename (m : Module) (names : Renaming) :
    m.Raised (m.rename names) names.apply 0 := by
  constructor
  · intro e' he'
    obtain ⟨e, he, rfl⟩ := List.mem_map.1 he'
    exact ⟨e, he, rfl, kernel?_mapFunctions _ _⟩
  · exact fun l hl => ⟨l, hl, rfl, fun r hr => ⟨r, hr, rfl⟩⟩

theorem raised_renumber {m' : Module} {amount : UInt32} (h : m.renumber amount = .ok m') :
    m.Raised m' id amount.toNat := by
  simp only [renumber, Outcome.bind_eq_ok, Outcome.pure_eq_ok] at h
  obtain ⟨entries, hentries, lists, hlists, functions, -, rfl⟩ := h
  constructor
  · intro e' he'
    have he' := (SortedMap.mem_setAll he').resolve_left List.not_mem_nil
    obtain ⟨e, he, hrun⟩ := Outcome.exists_of_mem_right (Outcome.mapM_eq_ok.1 hentries) he'
    simp only [Outcome.bind_eq_ok, Outcome.pure_eq_ok] at hrun
    obtain ⟨r, hr, node, hnode, rfl⟩ := hrun
    refine ⟨e, he, NodeRef.toNat_of_shift hr, ?_⟩
    rw [Node.eq_renumber_of_mapReferences (fun _ _ hs => NodeRef.eq_raise_of_shift hs) hnode,
      kernel?_renumber, Option.map_id, id]
  · intro l' hl'
    obtain ⟨l, hl, hrun⟩ := Outcome.exists_of_mem_right (Outcome.mapM_eq_ok.1 hlists) hl'
    obtain ⟨nodes, hnodes, hrun⟩ := Outcome.bind_eq_ok.1 hrun
    obtain rfl := Outcome.pure_eq_ok.1 hrun
    refine ⟨l, hl, rfl, fun r' hr' => ?_⟩
    obtain ⟨r, hr, hshift⟩ := Outcome.exists_of_mem_right (Outcome.mapM_eq_ok.1 hnodes) hr'
    exact ⟨r, hr, NodeRef.toNat_of_shift hshift⟩

theorem Raised.trans {m m' m'' : Module} {ρ ρ' : String → String} {n n' : Nat}
    (h : m.Raised m' ρ n) (h' : m'.Raised m'' ρ' n') : m.Raised m'' (ρ' ∘ ρ) (n + n') := by
  constructor
  · intro e'' he''
    obtain ⟨e', he', hr', hk'⟩ := h'.entries e'' he''
    obtain ⟨e, he, hr, hk⟩ := h.entries e' he'
    exact ⟨e, he, by omega, by rw [hk', hk, Option.map_map]⟩
  · intro l'' hl''
    obtain ⟨l', hl', hname', hrs'⟩ := h'.lists l'' hl''
    obtain ⟨l, hl, hname, hrs⟩ := h.lists l' hl'
    refine ⟨l, hl, hname.trans hname', fun r'' hr'' => ?_⟩
    obtain ⟨r', hr', heq'⟩ := hrs' r'' hr''
    obtain ⟨r, hr, heq⟩ := hrs r' hr'
    exact ⟨r, hr, by omega⟩

/-! ## Merged modules -/

/-- A definition is not replaced by another function. -/
theorem mem_mergeFunction_of_body {f g : Function} {fs : List Function} (hg : g ∈ fs)
    (hbody : g.isDeclaration = false) : g ∈ mergeFunction f fs := by
  induction fs with
  | nil => cases hg
  | cons x fs ih =>
    rw [mergeFunction_cons]
    split
    · obtain rfl | hg := List.mem_cons.1 hg
      · rw [Function.or, hbody, Bool.false_and, if_neg Bool.false_ne_true]
        exact List.mem_cons_self
      · exact List.mem_cons_of_mem _ hg
    · obtain rfl | hg := List.mem_cons.1 hg
      · exact List.mem_cons_self
      · exact List.mem_cons_of_mem _ (ih hg)

theorem mem_mergeFunctions_of_body {g : Function} {src fs : List Function} (hg : g ∈ fs)
    (hbody : g.isDeclaration = false) : g ∈ mergeFunctions src fs := by
  induction src generalizing fs with
  | nil => exact hg
  | cons f src ih => exact ih (mem_mergeFunction_of_body hg hbody)

variable {dest src : Module}

/-- A merged module has what it had, and the raised contents of the other one. -/
theorem merge_raised (h : dest.merge src = .ok m) : ∃ src' first,
    dest.nodes.next = .ok first ∧
    src.Raised src' (dest.newNames src).apply first.number.toNat ∧
    m.functions = mergeFunctions src'.functions dest.functions ∧
    m.nodes = dest.nodes.append src'.nodes ∧
    m.lists = (src'.lists.foldl (fun m l => m.appendToList l.name l.nodes) dest).lists := by
  obtain ⟨first, hfirst, h⟩ := Outcome.bind_eq_ok.1 h
  dsimp only at h
  have hrenamed := raised_rename src (dest.newNames src)
  by_cases hzero : first.number = 0
  · rw [if_pos hzero] at h
    obtain ⟨src', hsrc', h⟩ := Outcome.bind_eq_ok.1 h
    obtain rfl := Outcome.pure_eq_ok.1 hsrc'
    obtain rfl := Outcome.pure_eq_ok.1 h
    refine ⟨_, first, hfirst, ?_, rfl, rfl, rfl⟩
    rw [hzero]
    exact hrenamed
  · rw [if_neg hzero] at h
    obtain ⟨src', hsrc', h⟩ := Outcome.bind_eq_ok.1 h
    obtain rfl := Outcome.pure_eq_ok.1 h
    refine ⟨src', first, hfirst, ?_, rfl, rfl, rfl⟩
    have := hrenamed.trans (raised_renumber hsrc')
    rwa [Nat.zero_add, Function.id_comp] at this

theorem node?_eq_some {node : Node} :
    m.node? r = some node ↔ ∃ d, (r, d) ∈ m.nodes.entries ∧ d.node = node := by
  simp only [node?, Option.map_eq_some_iff, SortedMap.get?_eq_some_iff]

/-- The kernels of a module stay when another one is put into it. -/
theorem Launches.merge {function : String} (h : dest.Launches function r)
    (hmerge : dest.merge src = .ok m) : m.Launches function r := by
  obtain ⟨src', first, hfirst, hraised, hfunctions, hnodes, hlists⟩ := merge_raised hmerge
  obtain ⟨f, hf, hname, hbody, hlinkage⟩ := h.defined
  obtain ⟨d, hd, hnode⟩ := node?_eq_some.1 h.node
  refine ⟨⟨f, ?_, hname, hbody, hlinkage⟩, ?_, ?_⟩
  · rw [hfunctions]
    exact mem_mergeFunctions_of_body hf hbody
  · rw [listed_congr hlists, listed_appendToLists]
    exact List.mem_append_left _ h.listed
  · rw [node?_eq_some, hnodes]
    refine ⟨d, SortedMap.mem_append.2 (.inr ⟨hd, fun hmem => ?_⟩), hnode⟩
    -- the numbers of the other module come after those of this one
    obtain ⟨x, hx, heq⟩ := List.mem_map.1 hmem
    obtain ⟨e, -, hnumber, -⟩ := hraised.entries x hx
    have hlt := dest.nodes.lt_next hfirst hd
    rw [← heq, hnumber] at hlt
    omega

/-- A kernel of a merged module was one before, or is one by an annotation of the other module. -/
theorem kernels_merge {function : String}
    (hlisted : ∀ r ∈ dest.listed annotations, dest.nodes.contains r)
    (hmerge : dest.merge src = .ok m) (h : function ∈ m.kernels) :
    function ∈ dest.kernels ∨
      ∃ old, src.Annotates old ∧ (dest.newNames src).apply old = function := by
  obtain ⟨src', first, hfirst, hraised, -, hnodes, hlists⟩ := merge_raised hmerge
  rw [kernels_eq] at h
  obtain ⟨r, hr, hkernel⟩ := List.mem_filterMap.1 h
  obtain ⟨node, hnode, hkernel⟩ := Option.bind_eq_some_iff.1 hkernel
  obtain ⟨d, hd, rfl⟩ := node?_eq_some.1 hnode
  rw [hnodes] at hd
  rw [listed_congr hlists, listed_appendToLists, List.mem_append] at hr
  rcases hr with hr | hr <;> rcases (SortedMap.mem_append.1 hd).symm with ⟨hd, -⟩ | hd
  · left
    rw [kernels_eq]
    refine List.mem_filterMap.2 ⟨r, hr, ?_⟩
    rw [node?_eq_some.2 ⟨d, hd, rfl⟩]
    exact hkernel
  · -- the numbers in the list of this module are its own
    obtain ⟨e, he, heq⟩ := SortedMap.contains_iff.1 (hlisted r hr)
    obtain ⟨x, -, hnumber, -⟩ := hraised.entries _ hd
    have hlt := dest.nodes.lt_next hfirst he
    rw [heq, hnumber] at hlt
    omega
  · obtain ⟨l', hl', hr⟩ := List.mem_flatMap.1 hr
    obtain ⟨l, -, -, hrs⟩ := hraised.lists l' (List.mem_filter.1 hl').1
    obtain ⟨s, -, hnumber⟩ := hrs r hr
    have hlt := dest.nodes.lt_next hfirst hd
    rw [hnumber] at hlt
    omega
  · right
    obtain ⟨l', hl', hr⟩ := List.mem_flatMap.1 hr
    obtain ⟨hl', hname⟩ := List.mem_filter.1 hl'
    obtain ⟨l, hl, heq, hrs⟩ := hraised.lists l' hl'
    obtain ⟨s, hs, hnumber⟩ := hrs r hr
    obtain ⟨e, he, hnumber', hold⟩ := hraised.entries _ hd
    rw [hkernel] at hold
    obtain ⟨old, hold, hnew⟩ := Option.map_eq_some_iff.1 hold.symm
    have hsame : e.1 = s := by
      change r.number.toNat = _ at hnumber'
      have : e.1.number = s.number := UInt32.toNat_inj.1 (by omega)
      exact congrArg NodeRef.mk this
    refine ⟨old, ⟨l, hl, heq.trans (of_decide_eq_true hname), s, hs, e.2.node, ?_, hold⟩, hnew⟩
    exact node?_eq_some.2 ⟨e.2, hsame ▸ he, rfl⟩

/-! ## Functions seen from outside -/

/-- Only functions with a property are defined and seen from outside. -/
def Exposes (m : Module) (p : String → Prop) : Prop :=
  ∀ f ∈ m.functions, f.isDeclaration = false → f.linkage = .external → p f.name

/-- A module follows another one if its definitions are those of the other one, as far as their
    names and linkages go; some may be gone. -/
def Follows (m' m : Module) : Prop :=
  ∀ f' ∈ m'.functions, f'.isDeclaration = false → ∃ f ∈ m.functions, f.isDeclaration = false ∧
    f.name = f'.name ∧ f.linkage = f'.linkage

theorem Exposes.follows {m' : Module} {p : String → Prop} (h : m.Exposes p)
    (hfollows : m'.Follows m) : m'.Exposes p := by
  intro f' hf' hbody hlinkage
  obtain ⟨f, hf, hfbody, hname, hsame⟩ := hfollows f' hf' hbody
  exact hname ▸ h f hf hfbody (hsame.trans hlinkage)

theorem internalize_exposes : m.internalize.Exposes (· ∈ m.kernels) := by
  intro f' hf' hbody hlinkage
  obtain ⟨f, hf, rfl⟩ := List.mem_map.1 hf'
  by_cases hkeep : f.isDeclaration || m.kernels.contains f.name
  · rw [if_pos hkeep] at hbody ⊢
    simpa [hbody] using hkeep
  · rw [if_neg hkeep] at hlinkage
    cases hlinkage

theorem Launches.internalize {function : String} (h : m.Launches function r) :
    m.internalize.Launches function r := by
  obtain ⟨f, hf, hname, hbody, hlinkage⟩ := h.defined
  refine ⟨⟨f, List.mem_map.2 ⟨f, hf, if_pos ?_⟩, hname, hbody, hlinkage⟩, h.listed, h.node⟩
  simp [hname, h.mem_kernels]

/-! ## Integer powers -/

/-- A function with other instructions in its blocks. -/
theorem same_of_mapInstructionsM {f f' : Function} {g : Instruction → Except Fault Instruction}
    (h : f.mapInstructionsM g = .ok f') :
    f'.name = f.name ∧ f'.linkage = f.linkage ∧ f'.isDeclaration = f.isDeclaration := by
  obtain ⟨blocks, hblocks, h⟩ := Outcome.bind_eq_ok.1 h
  obtain rfl := Outcome.pure_eq_ok.1 h
  refine ⟨rfl, rfl, ?_⟩
  have hlength := (Outcome.mapM_eq_ok.1 hblocks).length_eq
  rw [Function.isDeclaration, Function.isDeclaration, Bool.eq_iff_iff, List.isEmpty_iff_length_eq_zero,
    List.isEmpty_iff_length_eq_zero, hlength]

/-- The functions of the library are declared after all others. -/
theorem declarePowers_spec {types : List DataType} {m' : Module}
    (h : types.foldlM (fun m type => return m.declare (← powerFunction type) type [type, .i32]) m =
      .ok m') :
    (∃ new, m'.functions = m.functions ++ new ∧ ∀ f ∈ new, f.isDeclaration = true ∧
      isPowerName f.name = false) ∧ m'.nodes = m.nodes ∧ m'.lists = m.lists := by
  induction types generalizing m with
  | nil =>
    obtain rfl := Outcome.pure_eq_ok.1 h
    exact ⟨⟨[], by simp⟩, rfl, rfl⟩
  | cons type types ih =>
    rw [List.foldlM_cons] at h
    obtain ⟨m₁, hm₁, h⟩ := Outcome.bind_eq_ok.1 h
    obtain ⟨name, hname, hm₁⟩ := Outcome.bind_eq_ok.1 hm₁
    obtain rfl := Outcome.pure_eq_ok.1 hm₁
    obtain ⟨⟨new, hfunctions, hnew⟩, hnodes, hlists⟩ := ih h
    obtain ⟨declared, hdeclared, hall⟩ := m.functions_declare name type [type, .i32]
    have hlibrary : isPowerName name = false := by
      cases type <;> cases hname <;> simp [isPowerName]
    refine ⟨⟨declared ++ new, ?_, fun f hf => ?_⟩, hnodes.trans (nodes_declare _ _ _),
      hlists.trans (lists_declare _ _ _)⟩
    · rw [hfunctions, hdeclared, List.append_assoc]
    · obtain hf | hf := List.mem_append.1 hf
      · obtain rfl := hall f hf
        exact ⟨rfl, hlibrary⟩
      · exact hnew f hf

/-- Computing powers with the library leaves the metadata alone, and gives no function a body.
    A definition stays, unless no function has its name any more. -/
theorem lowerPowers_spec {m' : Module} (h : m.lowerPowers = .ok m') :
    m'.Follows m ∧ m'.nodes = m.nodes ∧ m'.lists = m.lists ∧
      ∀ f ∈ m.functions, f.isDeclaration = false → (m'.function? f.name).isSome →
        ∃ f' ∈ m'.functions, f'.name = f.name ∧ f'.isDeclaration = false ∧
          f'.linkage = f.linkage := by
  simp only [lowerPowers, Outcome.bind_eq_ok] at h
  obtain ⟨functions, hfunctions, h⟩ := h
  obtain ⟨⟨new, hnew, hall⟩, hnodes, hlists⟩ := declarePowers_spec h
  have hsteps := Outcome.mapM_eq_ok.1 hfunctions
  refine ⟨fun f' hf' hbody => ?_, hnodes, hlists, fun f hf hbody hsome => ?_⟩
  · rw [hnew] at hf'
    obtain hf' | hf' := List.mem_append.1 hf'
    · obtain ⟨f, hf, hrun⟩ := Outcome.exists_of_mem_right hsteps (List.mem_filter.1 hf').1
      obtain ⟨hname, hlinkage, hsame⟩ := same_of_mapInstructionsM hrun
      exact ⟨f, hf, hsame ▸ hbody, hname.symm, hlinkage.symm⟩
    · rw [(hall f' hf').1] at hbody
      cases hbody
  · obtain ⟨f', hf', hrun⟩ := Outcome.exists_of_mem_left hsteps hf
    obtain ⟨hname, hlinkage, hsame⟩ := same_of_mapInstructionsM hrun
    refine ⟨f', ?_, hname, hsame.trans hbody, hlinkage⟩
    rw [hnew]
    refine List.mem_append_left _ (List.mem_filter.2 ⟨hf', ?_⟩)
    rw [Bool.not_eq_true']
    by_contra hstale
    rw [Bool.not_eq_false, List.contains_iff_mem] at hstale
    -- the functions with a stale name are gone, and those of the library have other names
    obtain ⟨g, hg⟩ := Option.isSome_iff_exists.1 hsome
    obtain ⟨hgmem, hgname⟩ := function?_mem hg
    rw [hnew] at hgmem
    obtain hgmem | hgmem := List.mem_append.1 hgmem
    · have hgone := (List.mem_filter.1 hgmem).2
      rw [hgname, ← hname, List.contains_iff_mem.2 hstale] at hgone
      cases hgone
    · obtain ⟨x, hx, hxname⟩ := List.mem_map.1 hstale
      have hpower := (List.mem_filter.1 hx).2
      simp only [Bool.and_eq_true] at hpower
      rw [hxname, hname, ← hgname, (hall g hgmem).2] at hpower
      exact absurd hpower.1.2 Bool.false_ne_true

/-- Kernels stay if the module is well formed in the end: a function that an annotation names has
    not lost its name. -/
theorem Launches.lowerPowers {m' : Module} {function : String} (h : m.Launches function r)
    (hrun : m.lowerPowers = .ok m') (hwell : m'.WellFormed) : m'.Launches function r := by
  obtain ⟨-, hnodes, hlists, hstays⟩ := lowerPowers_spec hrun
  have hnode : m'.node? r = some (kernelNode function) := by
    rw [node?, hnodes]
    exact h.node
  obtain ⟨f, hf, rfl, hbody, hlinkage⟩ := h.defined
  have hsome : (m'.function? f.name).isSome := by
    refine hwell.targets (kernelNode f.name) ?_ f.name List.mem_cons_self
    obtain ⟨d, hd, hdnode⟩ := Option.map_eq_some_iff.1 hnode
    exact List.mem_map.2 ⟨(r, d), Position.mem_of_lookup hd, hdnode⟩
  obtain ⟨f', hf', hname, hbody', hlinkage'⟩ := hstays f hf hbody hsome
  exact ⟨⟨f', hf', hname, hbody', hlinkage'.trans hlinkage⟩, listed_congr hlists ▸ h.listed, hnode⟩

end Module

end Offload.Device
