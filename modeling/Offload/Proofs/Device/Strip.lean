import Offload.Proofs.Device.CleanUp

/-!
# What is left without debugging

Removing what is there for debuggers alone leaves exactly the nodes that the other lists lead
to, over references in tuples and in the fields of records alike. Cycles do not matter to that,
nor do numbers without a node: what leads to a node is told by links (`NodeTable.Leads`), not
by the search. All else stays as it is, in its order (`Module.stripDebug_spec`).

As a list leads to a node over nodes that stay, it still does afterwards
(`Module.stays_stripDebug`), so there is nothing to remove a second time.
-/

namespace Offload.Device

/-! ## Functions -/

namespace Function

variable {f : Function} {i : Instruction}

/-- The function without its calls for debuggers, and without remarks. -/
def undebugged (f : Function) : Function :=
  { f with
    debug := none
    blocks := f.blocks.map fun b =>
      { b with
        instructions := (b.instructions.filter (!·.isDebugCall)).map ({ · with debug := none }) } }

theorem instructions_undebugged : f.undebugged.instructions =
    (f.instructions.filter (!·.isDebugCall)).map ({ · with debug := none }) := by
  simp [instructions, undebugged, List.flatMap_map, List.filter_flatMap, List.map_flatMap]

/-- What is there for debuggers is gone from a function. -/
theorem of_mem_undebugged (hi : i ∈ f.undebugged.instructions) :
    i.debug = none ∧ i.isDebugCall = false := by
  rw [instructions_undebugged, List.mem_map] at hi
  obtain ⟨j, hj, rfl⟩ := hi
  have hkept := (List.mem_filter.1 hj).2
  rw [Bool.not_eq_true'] at hkept
  exact ⟨rfl, hkept⟩

@[simp]
theorem isDebugStub_undebugged : f.undebugged.isDebugStub = f.isDebugStub := by
  rw [isDebugStub, isDebugStub, isDeclaration, isDeclaration, undebugged, List.isEmpty_map]

@[simp]
theorem undebugged_undebugged : f.undebugged.undebugged = f.undebugged := by
  have hcall (i : Instruction) : ({ i with debug := none } : Instruction).isDebugCall =
      i.isDebugCall := rfl
  simp [undebugged, Function.comp_def, List.filter_map, List.filter_filter, hcall]

end Function

namespace Module

variable {m : Module} {r : NodeRef}

theorem functions_stripDebug :
    m.stripDebug.functions = (m.functions.filter (!·.isDebugStub)).map (·.undebugged) := by
  have hstrip (f : Function) : stripDebugFrom f = f.undebugged := by
    simp only [stripDebugFrom, Function.filterInstructions, Function.mapInstructions,
      Function.undebugged, List.map_map, Function.comp_def]
    rfl
  rw [stripDebug, ← funext hstrip]
  rfl

/-! ## Nodes -/

instance (m : Module) : DecidablePred m.Stays := fun _ =>
  decidable_of_iff _ (mem_reachable (m := { m with lists := m.lists.filter (!isDebugName ·.name) }))

theorem lists_stripDebug : m.stripDebug.lists = m.lists.filter (!isDebugName ·.name) := rfl

theorem nodes_stripDebug : m.stripDebug.nodes = m.nodes.restrict (m.Stays ·) := by
  change m.nodes.restrict _ = _
  refine congrArg m.nodes.restrict (funext fun r => ?_)
  rw [Bool.eq_iff_iff, List.contains_iff_mem, mem_reachable, decide_eq_true_iff]
  rfl

/-- A node that stays refers to what it referred to before. -/
theorem successors_stripDebug (hr : m.Stays r) :
    m.stripDebug.nodes.successors r = m.nodes.successors r := by
  have hget : (m.nodes.restrict (m.Stays ·)).get? r = m.nodes.get? r :=
    SortedMap.get?_restrict (decide_eq_true hr)
  rw [NodeTable.successors, NodeTable.successors, nodes_stripDebug, hget]

/-- What stays is what would stay a second time. -/
theorem stays_stripDebug : m.stripDebug.Stays r ↔ m.Stays r := by
  have hlists : m.stripDebug.lists.filter (!isDebugName ·.name) =
      m.lists.filter (!isDebugName ·.name) := by
    rw [lists_stripDebug, List.filter_filter]
    simp only [Bool.and_self]
  rw [Stays, hlists]
  constructor
  · intro h
    induction h with
    | entry hl hr => exact .entry hl hr
    | step _ hs ih =>
      rw [successors_stripDebug ih] at hs
      exact ih.step hs
  · intro h
    induction h with
    | entry hl hr => exact .entry hl hr
    | step hr hs ih =>
      rw [← successors_stripDebug hr] at hs
      exact ih.step hs

/-- What is left of a module, part by part. -/
theorem stripDebug_eq : m.stripDebug = { m with
    functions := (m.functions.filter (!·.isDebugStub)).map (·.undebugged)
    lists := m.lists.filter (!isDebugName ·.name)
    nodes := m.nodes.restrict (m.Stays ·) } := by
  rw [← functions_stripDebug, ← lists_stripDebug, ← nodes_stripDebug]
  rfl

/-- There is nothing to remove a second time. -/
theorem stripDebug_stripDebug : m.stripDebug.stripDebug = m.stripDebug := by
  have hfunctions : (m.stripDebug.functions.filter (!·.isDebugStub)).map (·.undebugged) =
      m.stripDebug.functions := by
    simp [functions_stripDebug, List.filter_map, Function.comp_def, List.filter_filter]
  have hlists : m.stripDebug.lists.filter (!isDebugName ·.name) = m.stripDebug.lists := by
    simp [lists_stripDebug, List.filter_filter]
  have hnodes : m.stripDebug.nodes.restrict (m.stripDebug.Stays ·) = m.stripDebug.nodes := by
    refine congrArg NodeTable.mk (SortedMap.ext (List.filter_eq_self.2 fun e he => ?_))
    rw [nodes_stripDebug] at he
    exact decide_eq_true (stays_stripDebug.2 (of_decide_eq_true (List.mem_filter.1 he).2))
  conv_lhs => rw [stripDebug_eq, hfunctions, hlists, hnodes]

/-- Of the nodes, those stay to which the lists lead that are not for debuggers. Of the rest of
    the module, nothing stays that is for debuggers, and all else does, as it was and in its
    order. Removing it twice is removing it once. -/
theorem stripDebug_spec (m : Module) :
    m.stripDebug = { m with
      functions := (m.functions.filter (!·.isDebugStub)).map (·.undebugged)
      lists := m.lists.filter (!isDebugName ·.name)
      nodes := m.nodes.restrict (m.Stays ·) } ∧
    (∀ f ∈ m.stripDebug.functions, f.debug = none ∧ f.isDebugStub = false ∧
      ∀ i ∈ f.instructions, i.debug = none ∧ i.isDebugCall = false) ∧
    (∀ l ∈ m.stripDebug.lists, isDebugName l.name = false) ∧
    m.stripDebug.stripDebug = m.stripDebug := by
  refine ⟨stripDebug_eq, fun f hf => ?_, fun l hl => ?_, stripDebug_stripDebug⟩
  · rw [functions_stripDebug, List.mem_map] at hf
    obtain ⟨g, hg, rfl⟩ := hf
    rw [Function.isDebugStub_undebugged]
    exact ⟨rfl, by simpa using (List.mem_filter.1 hg).2, fun i => Function.of_mem_undebugged⟩
  · simpa using (List.mem_filter.1 hl).2

end Module

end Offload.Device
