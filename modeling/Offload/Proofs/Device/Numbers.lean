import Offload.Proofs.Device.Kernels

/-!
# Room for numbers

Linking raises all numbers of a module to after those of the module that it is put into.
This overflows iff some number does not fit there (`Module.FitsAfter`): then linking
faults, unless a conflict of functions ends it before any number is looked at. If it
does not fault, every node of the first module keeps its number and its content, and
every node of the second one stands under a number of its own (`Module.linkInto_numbers`).

What may overflow is composed of single additions. Each of them has a condition, and a
computation has all the conditions of its parts (`Checks`).
-/

namespace Offload.Device

/-! ## Computations that may overflow -/

/-- A computation gives a result iff a condition holds, and overflows otherwise. -/
def Checks {α : Type} (x : Except Fault α) (condition : Prop) : Prop :=
  (condition → ∃ a, x = .ok a) ∧ (¬condition → x = .error .overflow)

namespace Checks

variable {α β : Type} {x : Except Fault α} {p q : Prop}

theorem pure (a : α) : Checks (Pure.pure a : Except Fault α) True :=
  ⟨fun _ => ⟨a, rfl⟩, fun h => absurd trivial h⟩

theorem congr (h : Checks x p) (hiff : q ↔ p) : Checks x q :=
  ⟨fun hq => h.1 (hiff.1 hq), fun hq => h.2 fun hp => hq (hiff.2 hp)⟩

theorem bind {f : α → Except Fault β} (h : Checks x p) (hf : ∀ a, x = .ok a → Checks (f a) q) :
    Checks (x >>= f) (p ∧ q) := by
  by_cases hp : p
  case neg =>
    rw [h.2 hp]
    exact ⟨fun hpq => absurd hpq.1 hp, fun _ => rfl⟩
  obtain ⟨a, ha⟩ := h.1 hp
  rw [ha]
  exact (hf a ha).congr (and_iff_right hp)

theorem map {f : α → β} (h : Checks x p) : Checks (f <$> x) p := by
  by_cases hp : p
  · obtain ⟨a, ha⟩ := h.1 hp
    rw [ha]
    exact ⟨fun _ => ⟨f a, rfl⟩, fun hn => absurd hp hn⟩
  · rw [h.2 hp]
    exact ⟨fun h => absurd h hp, fun _ => rfl⟩

theorem mapM {f : α → Except Fault β} {c : α → Prop} (h : ∀ a, Checks (f a) (c a))
    (xs : List α) : Checks (xs.mapM f) (∀ a ∈ xs, c a) := by
  induction xs with
  | nil => exact (Checks.pure []).congr (by simp)
  | cons a xs ih =>
    rw [List.mapM_cons]
    exact ((h a).bind fun _ _ => ih.bind fun _ _ => .pure _).congr (by simp)

theorem optionMapM {f : α → Except Fault β} {c : α → Prop} (h : ∀ a, Checks (f a) (c a))
    (o : Option α) : Checks (o.mapM f) (∀ a ∈ o, c a) := by
  cases o with
  | none => exact (Checks.pure none).congr (by simp)
  | some a => exact (h a).map.congr (by simp)

end Checks

/-! ## Raising -/

/-- A number can be raised by an amount. -/
def NodeRef.Fits (amount : UInt32) (r : NodeRef) : Prop :=
  r.number.toNat + amount.toNat < UInt32.size

theorem NodeRef.shift_checks (amount : UInt32) (r : NodeRef) :
    Checks (r.shift amount) (r.Fits amount) := by
  rw [shift]
  split
  case isTrue h => exact ⟨fun _ => ⟨_, rfl⟩, fun hn => absurd h hn⟩
  case isFalse h => exact ⟨fun hr => absurd hr h, fun _ => rfl⟩

theorem Node.mapReferences_checks (amount : UInt32) (node : Node) :
    Checks (node.mapReferences (NodeRef.shift amount)) (∀ r ∈ node.references, r.Fits amount) := by
  cases node with
  | tuple parts =>
    refine (Checks.mapM (c := fun part => ∀ r ∈ part.asNode?, r.Fits amount) ?_
      parts).map.congr ?_
    · intro part
      cases part with
      | node r =>
        refine ((r.shift_checks amount).bind fun _ _ => .pure _).congr ?_
        simp [NodeOperand.asNode?]
      | _ => exact (Checks.pure _).congr (by simp [NodeOperand.asNode?])
    · simp only [references, List.forall_mem_filterMap, Option.mem_def]
  | record name fields =>
    refine (Checks.mapM (c := fun field => ∀ r ∈ NodeRef.ofText? field.2, r.Fits amount) ?_
      fields).map.congr ?_
    · rintro ⟨key, value⟩
      cases hvalue : NodeRef.ofText? value with
      | none =>
        simp only [hvalue]
        exact (Checks.pure _).congr (by simp)
      | some r =>
        simp only [hvalue]
        exact ((r.shift_checks amount).bind fun _ _ => .pure _).congr (by simp)
    · simp only [references, List.forall_mem_filterMap, Option.mem_def]

namespace Module

variable {dest src m : Module}

/-- All numbers in a module: those of nodes, and those that refer to nodes. -/
def numbers (m : Module) : List NodeRef :=
  (m.nodes.entries.flatMap fun e => e.1 :: e.2.node.references) ++ m.lists.flatMap (·.nodes) ++
    m.functions.flatMap fun f => f.instructions.filterMap (·.debug) ++ f.debug.toList

theorem mapInstructionsM_checks {g : Instruction → Except Fault Instruction}
    {condition : Instruction → Prop} (h : ∀ i, Checks (g i) (condition i)) (f : Function) :
    Checks (f.mapInstructionsM g) (∀ i ∈ f.instructions, condition i) := by
  have hblock (b : Block) : Checks (do
      return { b with instructions := ← b.instructions.mapM g } : Except Fault Block)
      (∀ i ∈ b.instructions, condition i) :=
    ((Checks.mapM h b.instructions).bind fun _ _ => .pure _).congr (by rw [and_true])
  refine ((Checks.mapM hblock f.blocks).bind fun _ _ => .pure _).congr ?_
  rw [Function.instructions, List.forall_mem_flatMap, and_true]

theorem renumber_checks (m : Module) (amount : UInt32) :
    Checks (m.renumber amount) (∀ r ∈ m.numbers, r.Fits amount) := by
  have hshift := NodeRef.shift_checks amount
  have hentry (e : NodeRef × NodeDef) : Checks (do
      return (← e.1.shift amount,
        { e.2 with node := ← e.2.node.mapReferences (NodeRef.shift amount) }) :
          Except Fault (NodeRef × NodeDef))
      (∀ r ∈ e.1 :: e.2.node.references, r.Fits amount) :=
    ((hshift e.1).bind fun _ _ =>
      (e.2.node.mapReferences_checks amount).bind fun _ _ => .pure _).congr (by simp)
  have hlist (l : NodeList) : Checks (do
      return { l with nodes := ← l.nodes.mapM (NodeRef.shift amount) } : Except Fault NodeList)
      (∀ r ∈ l.nodes, r.Fits amount) :=
    ((Checks.mapM hshift l.nodes).bind fun _ _ => .pure _).congr (by simp)
  have hinstruction (i : Instruction) : Checks (do
      return { i with debug := ← i.debug.mapM (NodeRef.shift amount) } : Except Fault Instruction)
      (∀ r ∈ i.debug, r.Fits amount) :=
    ((Checks.optionMapM hshift i.debug).bind fun _ _ => .pure _).congr (by simp)
  have hfunction (f : Function) : Checks (do
      let f ← f.mapInstructionsM fun i => do
        return { i with debug := ← i.debug.mapM (NodeRef.shift amount) }
      return { f with debug := ← f.debug.mapM (NodeRef.shift amount) } : Except Fault Function)
      (∀ r ∈ f.instructions.filterMap (·.debug) ++ f.debug.toList, r.Fits amount) := by
    refine ((mapInstructionsM_checks hinstruction f).bind
      (q := ∀ r ∈ f.debug, r.Fits amount) fun g hg => ?_).congr ?_
    · -- the second step looks at what the first one made, where the function has kept its own
      have hdebug : g.debug = f.debug := by
        obtain ⟨blocks, -, hg⟩ := Outcome.bind_eq_ok.1 hg
        cases hg
        rfl
      rw [← hdebug]
      exact ((Checks.optionMapM hshift g.debug).bind fun _ _ => .pure _).congr (by simp)
    · simp only [List.forall_mem_append, List.forall_mem_filterMap, Option.mem_toList,
        Option.mem_def]
  -- the conditions come in the order in which `numbers` lists what they are about
  refine ((Checks.mapM hentry _).bind fun _ _ => (Checks.mapM hlist _).bind fun _ _ =>
    (Checks.mapM hfunction _).bind fun _ _ => .pure _).congr ?_
  simp only [numbers, List.forall_mem_append, List.forall_mem_flatMap, and_assoc, and_true]

/-- Numbers that are changed in a module are changed wherever they stand. -/
theorem Relocates.numbers {ρ : String → String} {δ : NodeRef → NodeRef} {m m' : Module}
    (h : m.Relocates ρ δ m') : m'.numbers = m.numbers.map δ := by
  obtain ⟨change, href, -, hnodes⟩ := h.nodes
  have hfunction (f : Function) : (f.relocate ρ δ).instructions.filterMap (·.debug) ++
      (f.relocate ρ δ).debug.toList =
        (f.instructions.filterMap (·.debug) ++ f.debug.toList).map δ := by
    rw [Function.instructions_relocate, List.filterMap_map, List.map_append, List.map_filterMap]
    exact congrArg _ Option.toList_map
  simp only [Module.numbers, hnodes, h.lists, h.functions, List.flatMap_map, List.map_append,
    List.map_flatMap, List.map_cons, href, hfunction]

/-! ## Room for another module -/

/-- The numbers of a module can be raised to after those of another one. -/
def FitsAfter (src dest : Module) : Prop :=
  ∀ r, dest.nodes.contains r → r.number.toNat + 1 < UInt32.size ∧
    ∀ s ∈ src.numbers, r.number.toNat + 1 + s.number.toNat < UInt32.size

end Module

namespace NodeTable

variable {t u : NodeTable} {r first : NodeRef} {e : NodeRef × NodeDef}

theorem next_checks (t : NodeTable) :
    Checks t.next (∀ r, t.contains r → r.number.toNat + 1 < UInt32.size) := by
  obtain ⟨hnil, hnext⟩ | ⟨last, hlast, hle, hnext⟩ := t.next_cases
  · rw [hnext]
    refine (Checks.pure _).congr (iff_true_intro fun r hr => ?_)
    simp [SortedMap.contains_iff, hnil] at hr
  · rw [hnext]
    refine (last.shift_checks 1).congr ⟨fun hall => hall last hlast, fun hfits r hr => ?_⟩
    exact Nat.lt_of_le_of_lt (Nat.succ_le_succ (hle r hr)) hfits

/-- What can be raised to after all numbers can be raised by the next one. -/
theorem fits_next (hnext : t.next = .ok first) :
    r.Fits first.number ↔
      ∀ s, t.contains s → s.number.toNat + 1 + r.number.toNat < UInt32.size := by
  obtain ⟨hnil, hzero⟩ | ⟨last, hlast, hle, hshift⟩ := t.next_cases
  · obtain rfl := Except.ok.inj (hzero.symm.trans hnext)
    refine iff_of_true r.number.toNat_lt fun s hs => ?_
    simp [SortedMap.contains_iff, hnil] at hs
  · have hfirst := NodeRef.toNat_of_shift (hshift.symm.trans hnext)
    rw [NodeRef.Fits, hfirst]
    constructor
    · intro hfits s hs
      have := hle s hs
      change r.number.toNat + (last.number.toNat + 1) < _ at hfits
      omega
    · intro hall
      have := hall last hlast
      change r.number.toNat + (last.number.toNat + 1) < _
      omega

end NodeTable

theorem NodeRef.toNat_raise {amount : UInt32} {r : NodeRef} (h : r.Fits amount) :
    (r.raise amount).number.toNat = r.number.toNat + amount.toNat :=
  (UInt32.toNat_add _ _).trans (Nat.mod_eq_of_lt h)

namespace Module

variable {dest src m : Module}

theorem key_mem_numbers {e : NodeRef × NodeDef} (he : e ∈ m.nodes.entries) : e.1 ∈ m.numbers :=
  List.mem_append_left _ (List.mem_append_left _ (List.mem_flatMap.2 ⟨e, he, List.mem_cons_self⟩))

theorem merge_checks (hsrc : (src.functions.map (·.name)).Nodup) :
    Checks (dest.merge src) (src.FitsAfter dest) := by
  have hnumbers : (src.rename (dest.newNames src)).numbers = src.numbers := by
    rw [(relocates_newNames hsrc).numbers, List.map_id]
  refine (dest.nodes.next_checks.bind (q := ∀ s ∈ src.numbers, ∀ r, dest.nodes.contains r →
    r.number.toNat + 1 + s.number.toNat < UInt32.size) fun first hfirst => ?_).congr ?_
  · -- the numbers stay as they are, or are all raised
    refine Checks.congr (p := ∀ s ∈ src.numbers, s.Fits first.number) ?_
      (by simp only [NodeTable.fits_next hfirst])
    dsimp only
    split
    · rename_i hzero
      refine (Checks.pure _).congr (iff_true_intro fun s _ => ?_)
      rw [hzero]
      exact s.number.toNat_lt
    · have hraise := renumber_checks (src.rename (dest.newNames src)) first.number
      rw [hnumbers] at hraise
      exact (hraise.bind fun _ _ => .pure _).congr (by rw [and_true])
  · constructor
    · exact fun h => ⟨fun r hr => (h r hr).1, fun s hs r hr => (h r hr).2 s hs⟩
    · exact fun h r hr => ⟨h.1 r hr, fun s hs => h.2 s hs r hr⟩

/-- Linking faults only if a number overflows, which no conflict has prevented. -/
theorem linkInto_checks (hsrc : (src.functions.map (·.name)).Nodup) :
    Checks (dest.linkInto src)
      ((∃ f ∈ src.functions, dest.conflict? f ≠ none) ∨ src.FitsAfter dest) := by
  rw [linkInto]
  cases hconflict : src.functions.findSome? dest.conflict? with
  | some e =>
    obtain ⟨f, hf, he⟩ := List.exists_of_findSome?_eq_some hconflict
    exact (Checks.pure _).congr (iff_true_intro (.inl ⟨f, hf, by simp [he]⟩))
  | none =>
    have hnone := List.findSome?_eq_none_iff.1 hconflict
    refine ((merge_checks hsrc).bind fun _ _ => .pure _).congr ?_
    rw [and_true, or_iff_right]
    rintro ⟨f, hf, hsome⟩
    exact hsome (hnone f hf)

/-- The nodes of a module are those of two others: those of the first one as they were, and those
    of the second one under numbers after them. -/
structure Appends (dest src m : Module) (first : NodeRef) : Prop where
  after : ∀ r, dest.nodes.contains r → r.number < first.number
  fits : ∀ s ∈ src.numbers, s.Fits first.number
  kept : ∀ r d, dest.nodes.get? r = some d → m.nodes.get? r = some d
  moved : ∀ s d, src.nodes.get? s = some d → ∃ d', m.nodes.get? (s.raise first.number) = some d' ∧
    d'.distinct = d.distinct ∧
    d'.node.references = d.node.references.map (·.raise first.number) ∧
    d'.node.functions = d.node.functions.map (dest.newNames src).apply
  only : ∀ r, m.nodes.contains r → dest.nodes.contains r ∨
    ∃ s, src.nodes.contains s ∧ r = s.raise first.number

theorem linkInto_nodes (hsrc : (src.functions.map (·.name)).Nodup)
    (h : dest.linkInto src = .ok (.ok (), m)) :
    ∃ first, dest.nodes.next = .ok first ∧ Appends dest src m first := by
  obtain ⟨e, he, -⟩ | ⟨-, hmerge⟩ := linkInto_cases h
  · cases he
  obtain ⟨src', first, hfirst, hrelocates, hfunctions, hlists, hnodes⟩ :=
    merge_relocates hsrc hmerge
  obtain ⟨change, href, hfun, hentries⟩ := hrelocates.nodes
  have hlt : ∀ r, dest.nodes.contains r → r.number < first.number := by
    intro r hr
    obtain ⟨e, he, rfl⟩ := SortedMap.contains_iff.1 hr
    exact UInt32.lt_iff_toNat_lt.2 (dest.nodes.lt_next hfirst he)
  have hfits : ∀ s ∈ src.numbers, s.Fits first.number := by
    have hroom : src.FitsAfter dest := by
      by_contra hno
      rw [(merge_checks hsrc).2 hno] at hmerge
      cases hmerge
    exact fun s hs => (NodeTable.fits_next hfirst).2 fun r hr => (hroom r hr).2 s hs
  -- no raised number wraps around, so all of them stay after those of the first module
  have hle : ∀ s, src.nodes.contains s → first.number ≤ (s.raise first.number).number := by
    intro s hs
    obtain ⟨e, he, rfl⟩ := SortedMap.contains_iff.1 hs
    have hraise := NodeRef.toNat_raise (hfits e.1 (key_mem_numbers he))
    rw [UInt32.le_iff_toNat_le, hraise]
    exact Nat.le_add_left _ _
  have hcontains := (merged_of_relocates hrelocates hfunctions hlists hnodes).contains
  refine ⟨first, hfirst, hlt, hfits, fun r d hr => ?_, fun s d hs => ?_,
    fun r hr => (hcontains r).1 hr⟩
  · rw [hnodes]
    have hmem := SortedMap.get?_eq_some_iff.1 hr
    refine SortedMap.get?_eq_some_iff.2 (SortedMap.mem_append.2 (.inr ⟨hmem, fun hkey => ?_⟩))
    rw [SortedMap.keys, hentries, List.map_map] at hkey
    obtain ⟨e, he, rfl⟩ := List.mem_map.1 hkey
    have hbefore := hlt _ (SortedMap.contains_iff.2 ⟨_, hmem, rfl⟩)
    exact absurd hbefore (UInt32.not_lt.2 (hle e.1 (SortedMap.contains_iff.2 ⟨e, he, rfl⟩)))
  · refine ⟨{ d with node := change d.node }, ?_, rfl, href d.node, hfun d.node⟩
    rw [hnodes]
    refine SortedMap.get?_eq_some_iff.2 (SortedMap.mem_append.2 (.inl ?_))
    rw [hentries]
    exact List.mem_map.2 ⟨(s, d), SortedMap.get?_eq_some_iff.1 hs, rfl⟩

/-- Linking a well-formed module into another one faults iff some number of it does not fit after
    those of the other one, unless functions are in conflict. If the modules are linked, no
    number has overflowed, and no node has taken the place of another one. -/
theorem linkInto_numbers (dest : Module) (hsrc : src.defects = []) :
    Checks (dest.linkInto src)
      ((∃ f ∈ src.functions, dest.conflict? f ≠ none) ∨ src.FitsAfter dest) ∧
    ∀ m, dest.linkInto src = .ok (.ok (), m) →
      ∃ first, dest.nodes.next = .ok first ∧ Appends dest src m first := by
  have hnames := (defects_eq_nil_iff.1 hsrc).names
  exact ⟨linkInto_checks hnames, fun m h => linkInto_nodes hnames h⟩

/-- A module whose only node has the last number. -/
def sampleFull : Module where
  name := "full"
  nodes := .ofList [(⟨4294967295⟩, ⟨false, .tuple []⟩)]

/-- After a node with the last number there is no room, whatever is linked. After two nodes there
    is. -/
theorem linkInto_numbers_sample :
    (sampleFull.defects = [] ∧ sampleSrc.defects = []) ∧
      sampleFull.linkInto sampleSrc = .error .overflow ∧
      sampleDest.linkInto sampleSrc = .ok (.ok (), sampleLinked) ∧
      ∀ s ∈ sampleSrc.numbers, s.Fits 2 := by
  have hfull : sampleFull.defects = [] := by decide +kernel
  have hsrc : sampleSrc.defects = [] := by decide +kernel
  have hlink : sampleDest.linkInto sampleSrc = .ok (.ok (), sampleLinked) := rfl
  obtain ⟨⟨-, hfault⟩, -⟩ := linkInto_numbers sampleFull hsrc
  obtain ⟨-, hnodes⟩ := linkInto_numbers sampleDest hsrc
  obtain ⟨first, hfirst, happends⟩ := hnodes _ hlink
  obtain rfl : ⟨2⟩ = first := Except.ok.inj hfirst
  refine ⟨⟨hfull, hsrc⟩, hfault ?_, hlink, happends.fits⟩
  rintro (⟨f, hf, hconflict⟩ | hroom)
  · exact hconflict rfl
  · exact absurd (hroom ⟨4294967295⟩ rfl).1 (by decide)

end Module

end Offload.Device
