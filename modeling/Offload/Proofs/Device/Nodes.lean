import Mathlib.Data.List.Basic
import Mathlib.Data.List.Flatten
import Mathlib.Data.List.Pairwise
import Offload.Device.Optimize

/-!
# What leads to a node

The lists of a module lead to the nodes that they name, and from there to whatever these
refer to (`NodeTable.Leads`). The search for these nodes is bounded by a number of steps.
It does not run out of them, as each step takes a number off the list of those to look at,
and only a number that is new puts the references of its node there. So the search finds
exactly what the lists lead to (`Module.mem_reachable`).
-/

namespace Offload.Device

namespace NodeTable

/-- The nodes to which the node with a number refers. -/
def successors (t : NodeTable) (r : NodeRef) : List NodeRef :=
  ((t.get? r).map (·.node.references)).getD []

/-- Lists lead to a node: it is in one of them, or they lead to one that refers to it. -/
inductive Leads (t : NodeTable) (lists : List NodeList) : NodeRef → Prop
  | entry {l : NodeList} {r : NodeRef} (hl : l ∈ lists) (hr : r ∈ l.nodes) : Leads t lists r
  | step {r s : NodeRef} (hr : Leads t lists r) (hs : s ∈ t.successors r) : Leads t lists s

/-- The references of those of some nodes whose numbers are not found yet. -/
def pending (found : List NodeRef) (entries : List (NodeRef × NodeDef)) : List NodeRef :=
  (entries.filter fun e => !found.contains e.1).flatMap (·.2.node.references)

variable {t : NodeTable} {found : List NodeRef} {r : NodeRef}

theorem length_pending_cons_le (r : NodeRef) (found : List NodeRef)
    (entries : List (NodeRef × NodeDef)) :
    (pending (r :: found) entries).length ≤ (pending found entries).length := by
  refine List.Sublist.length_le (List.Sublist.flatMap ?_ _)
  refine List.monotone_filter_right _ fun e he => ?_
  rw [List.contains_cons, Bool.not_or, Bool.and_eq_true] at he
  exact he.2

/-- A number that is found for the first time accounts for the references of its node. -/
theorem length_successors_add_le (hr : r ∉ found) :
    (t.successors r).length + (pending (r :: found) t.entries).length ≤
      (pending found t.entries).length := by
  cases hget : t.get? r with
  | none =>
    have hnone : t.successors r = [] := by rw [successors, hget]; rfl
    rw [hnone, List.length_nil, Nat.zero_add]
    exact length_pending_cons_le r found t.entries
  | some d =>
    have hsuccessors : t.successors r = d.node.references := by rw [successors, hget]; rfl
    obtain ⟨before, after, hsplit⟩ := List.append_of_mem (SortedMap.get?_eq_some_iff.1 hget)
    have hbefore := length_pending_cons_le r found before
    have hafter := length_pending_cons_le r found after
    -- the entry of the number itself is pending before, and not afterwards
    have hnew : found.contains r = false := by simpa using hr
    rw [hsuccessors, hsplit]
    simp only [pending, List.filter_append, List.filter_cons, List.contains_cons,
      beq_self_eq_true, Bool.true_or, Bool.not_true, Bool.false_eq_true, if_false, hnew,
      Bool.not_false, if_true, List.flatMap_append, List.flatMap_cons, List.length_append]
      at hbefore hafter ⊢
    omega

end NodeTable

namespace Module

variable {m : Module} {n : Nat} {todo found : List NodeRef} {r : NodeRef}

theorem reach_step : m.reach (n + 1) (r :: todo) found =
    if found.contains r then m.reach n todo found
    else m.reach n (m.nodes.successors r ++ todo) (r :: found) := by
  rw [reach, node?, Option.map_map]
  rfl

/-- The search goes no further than the lists lead. -/
theorem leads_of_mem_reach {lists : List NodeList} (htodo : ∀ s ∈ todo, m.nodes.Leads lists s)
    (hfound : ∀ s ∈ found, m.nodes.Leads lists s) :
    ∀ s ∈ m.reach n todo found, m.nodes.Leads lists s := by
  induction n generalizing todo found with
  | zero => exact hfound
  | succ n ih =>
    cases todo with
    | nil => exact hfound
    | cons r todo =>
      obtain ⟨hr, htodo⟩ := List.forall_mem_cons.1 htodo
      rw [reach_step]
      split
      · exact ih htodo hfound
      · refine ih (fun s hs => ?_) (List.forall_mem_cons.2 ⟨hr, hfound⟩)
        obtain hs | hs := List.mem_append.1 hs
        · exact .step hr hs
        · exact htodo s hs

/-- The search finds what it starts from, and with every number all to which the node
    refers, if it has steps for all of them. -/
theorem reach_closed (hn : todo.length + (NodeTable.pending found m.nodes.entries).length < n)
    (hclosed : ∀ r ∈ found, ∀ s ∈ m.nodes.successors r, s ∈ found ∨ s ∈ todo) :
    (∀ r, r ∈ found ∨ r ∈ todo → r ∈ m.reach n todo found) ∧
      ∀ r ∈ m.reach n todo found, ∀ s ∈ m.nodes.successors r, s ∈ m.reach n todo found := by
  induction n generalizing todo found with
  | zero => exact absurd hn (Nat.not_lt_zero _)
  | succ n ih =>
    cases todo with
    | nil =>
      have hnil : ∀ r, r ∈ found ∨ r ∈ [] → r ∈ found := fun r hr =>
        hr.resolve_right List.not_mem_nil
      exact ⟨hnil, fun r hr s hs => hnil s (hclosed r hr s hs)⟩
    | cons r todo =>
      rw [List.length_cons] at hn
      rw [reach_step]
      split
      case isTrue hfound =>
        rw [List.contains_iff_mem] at hfound
        have hmem : ∀ s, s ∈ found ∨ s ∈ r :: todo → s ∈ found ∨ s ∈ todo := by
          rintro s (hs | hs)
          · exact .inl hs
          · obtain rfl | hs := List.mem_cons.1 hs
            · exact .inl hfound
            · exact .inr hs
        have hclosed' : ∀ p ∈ found, ∀ s ∈ m.nodes.successors p, s ∈ found ∨ s ∈ todo :=
          fun p hp s hs => hmem s (hclosed p hp s hs)
        obtain ⟨hstart, hend⟩ := ih (by omega) hclosed'
        exact ⟨fun s hs => hstart s (hmem s hs), hend⟩
      case isFalse hnew =>
        rw [List.contains_iff_mem] at hnew
        have hless := NodeTable.length_successors_add_le (t := m.nodes) hnew
        have hclosed' : ∀ p ∈ r :: found, ∀ s ∈ m.nodes.successors p,
            s ∈ r :: found ∨ s ∈ m.nodes.successors r ++ todo := by
          intro p hp s hs
          obtain rfl | hp := List.mem_cons.1 hp
          · exact .inr (List.mem_append_left _ hs)
          · obtain hs | hs := hclosed p hp s hs
            · exact .inl (List.mem_cons_of_mem r hs)
            · obtain rfl | hs := List.mem_cons.1 hs
              · exact .inl List.mem_cons_self
              · exact .inr (List.mem_append_right _ hs)
        obtain ⟨hstart, hend⟩ := ih (by rw [List.length_append]; omega) hclosed'
        refine ⟨fun s hs => hstart s ?_, hend⟩
        obtain hs | hs := hs
        · exact .inl (List.mem_cons_of_mem r hs)
        · obtain rfl | hs := List.mem_cons.1 hs
          · exact .inl List.mem_cons_self
          · exact .inr (List.mem_append_right _ hs)

/-- The search finds exactly what the lists lead to. -/
theorem mem_reachable : r ∈ m.reachable ↔ m.nodes.Leads m.lists r := by
  have hentry : ∀ s ∈ m.lists.flatMap (·.nodes), m.nodes.Leads m.lists s := by
    intro s hs
    obtain ⟨l, hl, hs⟩ := List.mem_flatMap.1 hs
    exact .entry hl hs
  have hpending : NodeTable.pending [] m.nodes.entries =
      m.nodes.nodes.flatMap (·.references) := by
    simp [NodeTable.pending, NodeTable.nodes, List.flatMap_map, List.filter_true]
  have hnone : ∀ s ∈ ([] : List NodeRef), m.nodes.Leads m.lists s := fun _ hs =>
    absurd hs List.not_mem_nil
  refine ⟨leads_of_mem_reach hentry hnone r, fun hleads => ?_⟩
  rw [reachable]
  have hclosed : ∀ p ∈ ([] : List NodeRef), ∀ s ∈ m.nodes.successors p,
      s ∈ [] ∨ s ∈ m.lists.flatMap (·.nodes) := fun _ hp => absurd hp List.not_mem_nil
  obtain ⟨hstart, hend⟩ := reach_closed (by rw [hpending]; exact Nat.lt_succ_self _) hclosed
  induction hleads with
  | entry hl hr => exact hstart _ (.inr (List.mem_flatMap.2 ⟨_, hl, hr⟩))
  | step _ hs ih => exact hend _ ih _ hs

end Module

end Offload.Device
