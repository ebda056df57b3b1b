import Mathlib.Data.List.Nodup
import Mathlib.Data.List.Perm.Subperm
import Offload.Device.Link
import Offload.Proofs.Device.Rewriting
import Offload.Proofs.Outcome
import Offload.Proofs.Position
import Offload.Proofs.Text.Numeral

/-!
# New names and new numbers

Before a module is linked, its functions get other names and its nodes other numbers
(`Module.Relocates`). The new names are those of no function of either module, and no
two functions get the same one (`freshNames_eq`), so the functions of the module keep
distinct names and what they call. The new numbers are the old ones, all raised by one
amount, in the tuples, the records and the remarks alike (`Module.relocates_renumber`).
-/

namespace Offload.Device

/-! ## Fresh names -/

theorem candidate_injective (base : String) :
    Function.Injective fun n : Nat => s!"{base}.{n}" := by
  intro a b h
  have hchars := congrArg String.toList h
  simp only [String.toList_append] at hchars
  exact Text.toString_injective (String.toList_injective (List.append_cancel_left hchars))

/-- A search comes back with a taken name only if all candidates are taken. -/
theorem candidate_mem_of_freshName {taken : List String} {base : String} {fuel n : Nat}
    (h : freshName taken base fuel n ∈ taken) {k : Nat} (hk : k ≤ fuel) :
    s!"{base}.{n + k}" ∈ taken := by
  induction fuel generalizing n k with
  | zero =>
    obtain rfl := Nat.le_zero.1 hk
    exact h
  | succ fuel ih =>
    rw [freshName] at h
    split at h
    case isTrue hfirst =>
      cases k with
      | zero => simpa using hfirst
      | succ k =>
        have hlater := ih h (Nat.le_of_succ_le_succ hk)
        rwa [Nat.add_right_comm] at hlater
    case isFalse hfirst => exact absurd (List.contains_iff_mem.2 h) hfirst

/-- There are more candidates than taken names. -/
theorem freshName_notMem (taken : List String) (base : String) (n : Nat) :
    freshName taken base (taken.length + 1) n ∉ taken := by
  intro h
  let candidates := (List.range (taken.length + 2)).map fun k => s!"{base}.{n + k}"
  have hnodup : candidates.Nodup := by
    refine List.nodup_range.map fun a b hab => ?_
    exact Nat.add_left_cancel (candidate_injective base hab)
  have hsubset : candidates ⊆ taken := by
    intro name hname
    obtain ⟨k, hk, rfl⟩ := List.mem_map.1 hname
    exact candidate_mem_of_freshName h (Nat.le_of_lt_succ (List.mem_range.1 hk))
  have hlength := (hnodup.subperm hsubset).length_le
  simp only [candidates, List.length_map, List.length_range] at hlength
  omega

/-- Whether a function is internal and its name is taken in another module. -/
def Function.clashes (dest : Module) (f : Function) : Bool :=
  f.linkage = .internal && !f.isDeclaration && (dest.function? f.name).isSome

/-- Every function that clashes gets a name, and no name is given twice or was taken
    before. -/
theorem freshNames_eq (dest : Module) (taken : List String) (names : Renaming)
    (fs : List Function) :
    ∃ new : Renaming, freshNames dest taken names fs = new ++ names ∧
      new.map Prod.fst = ((fs.filter (·.clashes dest)).map (·.name)).reverse ∧
      (new.map Prod.snd).Nodup ∧ ∀ name ∈ new.map Prod.snd, name ∉ taken := by
  induction fs generalizing taken names with
  | nil => exact ⟨[], rfl, rfl, .nil, fun _ h => nomatch h⟩
  | cons f fs ih =>
    rw [freshNames]
    cases hclash : f.clashes dest with
    | false =>
      obtain ⟨new, heq, hkeys, hnew⟩ := ih taken names
      rw [Function.clashes] at hclash
      refine ⟨new, by rw [if_neg (by simpa using hclash), heq], ?_, hnew⟩
      rw [hkeys, List.filter_cons_of_neg (by simpa [Function.clashes] using hclash)]
    | true =>
      obtain ⟨new, heq, hkeys, hnodup, hnew⟩ :=
        ih (freshName taken f.name (taken.length + 1) 1 :: taken)
          ((f.name, freshName taken f.name (taken.length + 1) 1) :: names)
      have hfirst := freshName_notMem taken f.name 1
      rw [Function.clashes] at hclash
      refine ⟨new ++ [(f.name, freshName taken f.name (taken.length + 1) 1)], ?_, ?_, ?_, ?_⟩
      · rw [if_pos hclash, heq, List.append_assoc]
        rfl
      · rw [List.map_append, hkeys,
          List.filter_cons_of_pos (by simpa [Function.clashes] using hclash)]
        simp
      · rw [List.map_append, List.nodup_append]
        refine ⟨hnodup, List.nodup_singleton _, ?_⟩
        rintro name hname _ hlast rfl
        rw [List.map_cons, List.map_nil, List.mem_singleton] at hlast
        exact hnew name hname (hlast ▸ List.mem_cons_self)
      · intro name hname
        rw [List.map_append, List.mem_append] at hname
        obtain hname | hname := hname
        · exact fun hmem => hnew name hname (List.mem_cons_of_mem _ hmem)
        · rw [List.map_cons, List.map_nil, List.mem_singleton] at hname
          rwa [hname]

/-- New names for the functions of `src` that clash with those of `dest`. -/
def Module.newNames (dest src : Module) : Renaming :=
  freshNames dest ((dest.functions ++ src.functions).map (·.name)) [] src.functions

section NewNames

variable {dest src : Module} {name new : String} {f g : Function}

/-- A new name is given to every function that clashes, and to no other. -/
theorem mem_newNames_keys : name ∈ (dest.newNames src).map Prod.fst ↔
    ∃ f ∈ src.functions, f.clashes dest = true ∧ f.name = name := by
  obtain ⟨new, heq, hkeys, -⟩ :=
    freshNames_eq dest ((dest.functions ++ src.functions).map (·.name)) [] src.functions
  rw [Module.newNames, heq, List.append_nil, hkeys]
  simp [and_assoc]

/-- No new name is given twice, or is that of a function of either module. -/
theorem newNames_fresh : ((dest.newNames src).map Prod.snd).Nodup ∧
    ∀ new ∈ (dest.newNames src).map Prod.snd,
      new ∉ (dest.functions ++ src.functions).map (·.name) := by
  obtain ⟨new, heq, -, hfresh⟩ :=
    freshNames_eq dest ((dest.functions ++ src.functions).map (·.name)) [] src.functions
  rwa [Module.newNames, heq, List.append_nil]

theorem Renaming.apply_of_mem {names : Renaming} (h : name ∈ names.map Prod.fst) :
    (name, names.apply name) ∈ names := by
  obtain ⟨⟨key, value⟩, hentry, rfl⟩ := List.mem_map.1 h
  have hfound : (names.lookup key).isSome :=
    List.lookup_isSome_iff.2 ⟨(key, value), hentry, beq_self_eq_true key⟩
  obtain ⟨new, hnew⟩ := Option.isSome_iff_exists.1 hfound
  rw [Renaming.apply, hnew]
  exact Position.mem_of_lookup hnew

theorem Renaming.apply_of_notMem {names : Renaming} (h : name ∉ names.map Prod.fst) :
    names.apply name = name := by
  have hnone : names.lookup name = none := by
    rw [List.lookup_eq_none_iff]
    intro entry hentry
    exact bne_iff_ne.2 fun heq => h (List.mem_map.2 ⟨entry, hentry, heq.symm⟩)
  rw [Renaming.apply, hnone]
  rfl

/-- A function that clashes gets a name of no function of either module. -/
theorem newNames_apply_notMem (h : name ∈ (dest.newNames src).map Prod.fst) :
    (dest.newNames src).apply name ∉ (dest.functions ++ src.functions).map (·.name) :=
  newNames_fresh.2 _ (List.mem_map.2 ⟨_, Renaming.apply_of_mem h, rfl⟩)

/-- Functions of one module do not get the same name. -/
theorem newNames_apply_injOn (hf : f ∈ src.functions) (hg : g ∈ src.functions)
    (h : (dest.newNames src).apply f.name = (dest.newNames src).apply g.name) :
    f.name = g.name := by
  have htaken : ∀ k ∈ src.functions, k.name ∈ (dest.functions ++ src.functions).map (·.name) :=
    fun k hk => List.mem_map.2 ⟨k, List.mem_append_right _ hk, rfl⟩
  by_cases hfnew : f.name ∈ (dest.newNames src).map Prod.fst
  · have hfresh := newNames_apply_notMem hfnew
    by_cases hgnew : g.name ∈ (dest.newNames src).map Prod.fst
    · have hsame := List.inj_on_of_nodup_map newNames_fresh.1 (Renaming.apply_of_mem hfnew)
        (Renaming.apply_of_mem hgnew) h
      exact congrArg Prod.fst hsame
    · rw [h, Renaming.apply_of_notMem hgnew] at hfresh
      exact absurd (htaken g hg) hfresh
  · by_cases hgnew : g.name ∈ (dest.newNames src).map Prod.fst
    · have hfresh := newNames_apply_notMem hgnew
      rw [← h, Renaming.apply_of_notMem hfnew] at hfresh
      exact absurd (htaken f hf) hfresh
    · rwa [Renaming.apply_of_notMem hfnew, Renaming.apply_of_notMem hgnew] at h

end NewNames

/-! ## New numbers -/

namespace NodeRef

/-- A reference, raised by an amount. -/
def raise (amount : UInt32) (r : NodeRef) : NodeRef := ⟨r.number + amount⟩

theorem raise_zero : raise 0 = id := by
  funext r
  exact congrArg mk (UInt32.add_zero r.number)

theorem eq_raise_of_shift {amount : UInt32} {r s : NodeRef} (h : r.shift amount = .ok s) :
    s = r.raise amount := by
  rw [shift] at h
  split at h
  · cases h
    rfl
  · cases h

/-- Shifting adds the numbers. -/
theorem toNat_of_shift {amount : UInt32} {r s : NodeRef} (h : r.shift amount = .ok s) :
    s.number.toNat = r.number.toNat + amount.toNat := by
  rw [shift] at h
  split at h
  · rename_i hfits
    obtain rfl := Except.ok.inj h
    rw [UInt32.toNat_add, Nat.mod_eq_of_lt hfits]
  · cases h

theorem lt_of_shift {amount : UInt32} {r r' s s' : NodeRef} (h : r < s)
    (hr : r.shift amount = .ok r') (hs : s.shift amount = .ok s') : r' < s' := by
  have hlt : r.number.toNat < s.number.toNat := UInt32.lt_iff_toNat_lt.1 h
  refine UInt32.lt_iff_toNat_lt.2 ?_
  rw [toNat_of_shift hr, toNat_of_shift hs]
  exact Nat.add_lt_add_right hlt _

theorem text_toList (r : NodeRef) : r.text.toList = '!' :: (toString r.number.toNat).toList := by
  rw [text, String.toList_append]
  rfl

/-- The text of a reference is read back. -/
theorem ofText?_text (r : NodeRef) : ofText? r.text = some r := by
  have hdigits : (toString r.number.toNat).toList.all Char.isDigit = true :=
    List.all_eq_true.2 fun c hc => Text.isDigit_of_mem_toString hc
  have hsome : (toString r.number.toNat).toList.isEmpty = false := by
    simp
  simp only [ofText?, text_toList, hsome, hdigits, Text.digitsValue_toString]
  simp [r.number.toNat_lt, UInt32.size]

end NodeRef

/-- The part with another number for its node. -/
def NodeOperand.renumber (δ : NodeRef → NodeRef) : NodeOperand → NodeOperand
  | node r => node (δ r)
  | part => part

/-- The node with other numbers for those that it refers to. -/
def Node.renumber (δ : NodeRef → NodeRef) : Node → Node
  | tuple parts => tuple (parts.map (·.renumber δ))
  | record name fields => record name <| fields.map fun (key, value) =>
    (key, ((NodeRef.ofText? value).map fun r => (δ r).text).getD value)

namespace Node

variable {δ : NodeRef → NodeRef} {node node' : Node}

theorem references_renumber : (node.renumber δ).references = node.references.map δ := by
  cases node with
  | tuple parts =>
    simp only [renumber, references, List.filterMap_map, List.map_filterMap]
    refine List.filterMap_congr fun part _ => ?_
    cases part <;> rfl
  | record name fields =>
    simp only [renumber, references, List.filterMap_map, List.map_filterMap]
    refine List.filterMap_congr ?_
    rintro ⟨key, value⟩ -
    cases h : NodeRef.ofText? value <;> simp [h, NodeRef.ofText?_text]

theorem functions_renumber : (node.renumber δ).functions = node.functions := by
  cases node with
  | tuple parts =>
    simp only [renumber, functions, List.filterMap_map]
    refine List.filterMap_congr fun part _ => ?_
    cases part <;> rfl
  | record => rfl

theorem references_mapFunctions {ρ : String → String} :
    (node.mapFunctions ρ).references = node.references := by
  cases node with
  | tuple parts =>
    simp only [mapFunctions, references, List.filterMap_map]
    refine List.filterMap_congr fun part _ => ?_
    cases part <;> rfl
  | record => rfl

theorem functions_mapFunctions {ρ : String → String} :
    (node.mapFunctions ρ).functions = node.functions.map ρ := by
  cases node with
  | tuple parts =>
    simp only [mapFunctions, functions, List.filterMap_map, List.map_filterMap]
    refine List.filterMap_congr fun part _ => ?_
    cases part <;> rfl
  | record => rfl

theorem eq_renumber_of_mapReferences {shift : NodeRef → Except Fault NodeRef}
    (hshift : ∀ r s, shift r = .ok s → s = δ r) (h : node.mapReferences shift = .ok node') :
    node' = node.renumber δ := by
  cases node with
  | tuple parts =>
    obtain ⟨parts', hparts, rfl⟩ := Outcome.map_eq_ok.1 h
    refine congrArg tuple (Outcome.eq_map_of_mapM (fun part part' hpart => ?_) hparts)
    cases part with
    | node r =>
      obtain ⟨s, hs, hpart⟩ := Outcome.bind_eq_ok.1 hpart
      cases hpart
      rw [hshift r s hs]
      rfl
    | _ =>
      cases hpart
      rfl
  | record name fields =>
    obtain ⟨fields', hfields, rfl⟩ := Outcome.map_eq_ok.1 h
    refine congrArg (record name) (Outcome.eq_map_of_mapM ?_ hfields)
    rintro ⟨key, value⟩ field' hfield
    dsimp only at hfield ⊢
    cases hvalue : NodeRef.ofText? value with
    | none =>
      rw [hvalue] at hfield
      cases hfield
      rfl
    | some r =>
      rw [hvalue] at hfield
      obtain ⟨s, hs, hfield⟩ := Outcome.bind_eq_ok.1 hfield
      cases hfield
      rw [hshift r s hs]
      rfl

end Node

/-! ## Relocation -/

/-- A module with other names for its functions and other numbers for its nodes. -/
structure Module.Relocates (ρ : String → String) (δ : NodeRef → NodeRef) (m m' : Module) :
    Prop where
  functions : m'.functions = m.functions.map (·.relocate ρ δ)
  lists : m'.lists = m.lists.map fun l => { l with nodes := l.nodes.map δ }
  nodes : ∃ change : Node → Node, (∀ node, (change node).references = node.references.map δ) ∧
    (∀ node, (change node).functions = node.functions.map ρ) ∧
    m'.nodes.entries = m.nodes.entries.map fun e => (δ e.1, { e.2 with node := change e.2.node })

namespace Module

variable {m m' m'' : Module} {ρ ρ' : String → String} {δ δ' : NodeRef → NodeRef}

theorem Relocates.trans (h : m.Relocates ρ δ m') (h' : m'.Relocates ρ' δ' m'') :
    m.Relocates (ρ' ∘ ρ) (δ' ∘ δ) m'' := by
  obtain ⟨change, href, hfun, hnodes⟩ := h.nodes
  obtain ⟨change', href', hfun', hnodes'⟩ := h'.nodes
  refine ⟨?_, ?_, change' ∘ change, ?_, ?_, ?_⟩
  · rw [h'.functions, h.functions, List.map_map]
    exact List.map_congr_left fun f _ => Function.relocate_relocate
  · rw [h'.lists, h.lists, List.map_map]
    simp [Function.comp_def]
  · intro node
    simp [href', href]
  · intro node
    simp [hfun', hfun]
  · rw [hnodes', hnodes, List.map_map]
    rfl

theorem eq_relocate_of_rename {names : Renaming} {f : Function}
    (h : f.linkage ≠ .internal → names.apply f.name = f.name) :
    f.rename names = f.relocate names.apply id := by
  have hactions : f.rename names = if f.linkage = .internal then
      { f.mapActions (·.relocate names.apply) with name := names.apply f.name }
      else f.mapActions (·.relocate names.apply) := rfl
  have hsame : f.relocate names.apply id =
      { f.mapActions (·.relocate names.apply) with name := names.apply f.name } := by
    simp [Function.relocate, Function.mapActions, Function.mapInstructions, Instruction.relocate]
  rw [hactions, hsame]
  split
  case isTrue => rfl
  case isFalse hlinkage =>
    rw [h hlinkage]
    rfl

/-- A module whose internal functions alone get new names. -/
theorem relocates_rename {names : Renaming}
    (h : ∀ f ∈ m.functions, f.linkage ≠ .internal → names.apply f.name = f.name) :
    m.Relocates names.apply id (m.rename names) := by
  refine ⟨?_, ?_, Node.mapFunctions names.apply, ?_, ?_, rfl⟩
  · exact List.map_congr_left fun f hf => eq_relocate_of_rename (h f hf)
  · simp [Module.rename]
  · intro node
    rw [Node.references_mapFunctions, List.map_id]
  · intro node
    exact Node.functions_mapFunctions

theorem eq_mapInstructions_of_mapInstructionsM {f f' : Function}
    {g : Instruction → Except Fault Instruction} {k : Instruction → Instruction}
    (hg : ∀ i j, g i = .ok j → j = k i) (h : f.mapInstructionsM g = .ok f') :
    f' = f.mapInstructions k := by
  obtain ⟨blocks, hblocks, h⟩ := Outcome.bind_eq_ok.1 h
  cases h
  rw [Function.mapInstructions, Outcome.eq_map_of_mapM ?_ hblocks]
  intro b b' hb
  obtain ⟨instructions, hinstructions, hb⟩ := Outcome.bind_eq_ok.1 hb
  cases hb
  rw [Outcome.eq_map_of_mapM hg hinstructions]

/-- Numbers are raised wherever they stand. -/
theorem relocates_renumber {amount : UInt32} (h : m.renumber amount = .ok m') :
    m.Relocates id (·.raise amount) m' := by
  have hshift : ∀ r s, NodeRef.shift amount r = .ok s → s = r.raise amount :=
    fun _ _ hs => NodeRef.eq_raise_of_shift hs
  simp only [Module.renumber, Outcome.bind_eq_ok, Outcome.pure_eq_ok] at h
  obtain ⟨entries, hentries, lists, hlists, functions, hfunctions, rfl⟩ := h
  have hordered : entries.Pairwise fun e f => e.1 < f.1 := by
    refine Outcome.pairwise_of_mapM (fun e f e' f' hlt he hf => ?_) m.nodes.ordered hentries
    obtain ⟨r, hr, he⟩ := Outcome.bind_eq_ok.1 he
    obtain ⟨_, -, he⟩ := Outcome.bind_eq_ok.1 he
    obtain ⟨s, hs, hf⟩ := Outcome.bind_eq_ok.1 hf
    obtain ⟨_, -, hf⟩ := Outcome.bind_eq_ok.1 hf
    cases he
    cases hf
    exact NodeRef.lt_of_shift hlt hr hs
  refine ⟨?_, ?_, Node.renumber (·.raise amount), fun _ => Node.references_renumber, ?_, ?_⟩
  · refine Outcome.eq_map_of_mapM ?_ hfunctions
    intro f f' hf
    obtain ⟨g, hg, hf⟩ := Outcome.bind_eq_ok.1 hf
    obtain ⟨debug, hdebug, hf⟩ := Outcome.bind_eq_ok.1 hf
    cases hf
    have hg := eq_mapInstructions_of_mapInstructionsM
      (k := fun i => { i with debug := i.debug.map (·.raise amount) }) ?_ hg
    · subst hg
      rw [Outcome.eq_map_of_option_mapM hshift hdebug]
      simp [Function.relocate, Function.mapInstructions, Instruction.relocate]
    · intro i j hi
      obtain ⟨debug, hdebug, hi⟩ := Outcome.bind_eq_ok.1 hi
      cases hi
      rw [Outcome.eq_map_of_option_mapM hshift hdebug]
  · refine Outcome.eq_map_of_mapM ?_ hlists
    intro l l' hl
    obtain ⟨nodes, hnodes, hl⟩ := Outcome.bind_eq_ok.1 hl
    cases hl
    rw [Outcome.eq_map_of_mapM hshift hnodes]
  · intro node
    rw [Node.functions_renumber, List.map_id]
  · refine (SortedMap.entries_ofList hordered).trans (Outcome.eq_map_of_mapM ?_ hentries)
    rintro ⟨r, d⟩ entry hentry
    obtain ⟨s, hs, hentry⟩ := Outcome.bind_eq_ok.1 hentry
    obtain ⟨node, hnode, hentry⟩ := Outcome.bind_eq_ok.1 hentry
    cases hentry
    rw [hshift r s hs, Node.eq_renumber_of_mapReferences hshift hnode]

end Module

end Offload.Device
