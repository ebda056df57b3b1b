import Mathlib.Order.Bounds.Defs
import Offload.Device.Sweep
import Offload.Proofs.Device.Reduction

/-!
# What sweeping leaves

A set of instructions of a function *sustains itself* if every one of them that matters by
its value alone has a value that another one of the set uses, or it uses itself
(`Function.Sustained`). Such sets may be joined, so there is a greatest one, and sweeping
leaves exactly this (`Function.sweep_isGreatest`).

Two facts carry the proof. A round spares every set that sustains itself, as it only takes
away what nothing uses that is left (`Function.Spares.round`). And a round that takes nothing
away leaves a set that sustains itself. The rounds do end with such a one, for every other
round takes an instruction away.
-/

namespace Offload.Device

/-- Where an instruction stands: the number of its block, and its own number there. -/
structure CodePoint where
  block : Nat
  index : Nat
  deriving DecidableEq, Repr

namespace Function

variable {f g : Function} {keep keep' : Instruction → Bool}

/-- The instruction at a site. -/
def at? (f : Function) (s : CodePoint) : Option Instruction :=
  f.blocks[s.block]?.bind (·.instructions[s.index]?)

/-- The sites of the instructions with a property. -/
def sites (f : Function) (keep : Instruction → Bool) : Set CodePoint :=
  {s | ∃ i, f.at? s = some i ∧ keep i = true}

/-- There are instructions at some sites, and each of them that is dead if unused has a value
    that is used at one of the sites. -/
def Sustained (f : Function) (K : Set CodePoint) : Prop :=
  ∀ s ∈ K, ∃ i, f.at? s = some i ∧ (i.action.isDeadIfUnused = true →
    ∃ name, i.result = some name ∧
      ∃ t ∈ K, ∃ j, f.at? t = some j ∧ .value name ∈ j.action.operands)

theorem mem_instructions_iff_at? {i : Instruction} :
    i ∈ f.instructions ↔ ∃ s, f.at? s = some i := by
  rw [mem_instructions]
  constructor
  · rintro ⟨b, hb, hi⟩
    obtain ⟨m, hm⟩ := List.mem_iff_getElem?.1 hb
    obtain ⟨n, hn⟩ := List.mem_iff_getElem?.1 hi
    exact ⟨⟨m, n⟩, by rw [at?, hm, Option.bind_some, hn]⟩
  · rintro ⟨s, hs⟩
    obtain ⟨b, hb, hi⟩ := Option.bind_eq_some_iff.1 hs
    exact ⟨b, List.mem_of_getElem? hb, List.mem_of_getElem? hi⟩

/-! ## Rounds -/

theorem filterInstructions_filterInstructions :
    (f.filterInstructions keep).filterInstructions keep' =
      f.filterInstructions fun i => keep i && keep' i := by
  simp [filterInstructions, Function.comp_def, List.filter_filter, Bool.and_comm]

theorem filterInstructions_true : f.filterInstructions (fun _ => true) = f := by
  simp [filterInstructions]

/-- What is not made shorter is left as it is. -/
theorem filterInstructions_eq_self
    (h : (f.filterInstructions keep).instructions.length = f.instructions.length) :
    f.filterInstructions keep = f := by
  rw [instructions_filterInstructions, List.length_filter_eq_length_iff] at h
  have hblocks : ∀ b ∈ f.blocks,
      { b with instructions := b.instructions.filter keep } = b := fun b hb => by
    rw [List.filter_eq_self.2 fun i hi => h i (mem_instructions.2 ⟨b, hb, hi⟩)]
  rw [filterInstructions, List.map_congr_left hblocks, List.map_id']

/-- What a round counts is what it takes away. -/
theorem gone_add_length (f : Function) :
    (f.blocks.zipWith (fun b c => b.instructions.length - c.instructions.length)
      f.sweepOnce.blocks).foldr (· + ·) 0 + f.sweepOnce.instructions.length = f.instructions.length := by
  rw [sweepOnce]
  generalize isNeeded f.usedValues = keep
  simp only [instructions, filterInstructions]
  induction f.blocks with
  | nil => rfl
  | cons b bs ih =>
    have hle := List.length_filter_le keep b.instructions
    simp only [List.map_cons, List.zipWith_cons_cons, List.foldr_cons, List.flatMap_cons,
      List.length_append] at ih ⊢
    omega

/-- Nothing that is left is dead. -/
def Settled (f : Function) : Prop := f.sweepOnce = f

theorem settled_of_length (h : f.sweepOnce.instructions.length = f.instructions.length) :
    f.Settled := filterInstructions_eq_self h

theorem Settled.needed (h : f.Settled) {i : Instruction} (hi : i ∈ f.instructions) :
    isNeeded f.usedValues i = true := by
  rw [Settled, sweepOnce] at h
  rw [← h, instructions_filterInstructions] at hi
  exact (List.mem_filter.1 hi).2

/-- A round of a settled function counts nothing. -/
theorem Settled.sweep (h : f.Settled) : f.sweep = (f, 0) := by
  have hgone := f.gone_add_length
  rw [h] at hgone
  rw [Function.sweep, sweepCounting, h, if_pos (by omega)]

/-- The rounds end, one by one with those that count. -/
theorem sweepCounting_spec {n : Nat} (hn : f.instructions.length < n) :
    (f.sweepCounting n).1 = f.sweepWithin n ∧ (f.sweepWithin n).Settled ∧
      (f.sweepCounting n).2 + (f.sweepWithin n).instructions.length = f.instructions.length := by
  induction n generalizing f with
  | zero => exact absurd hn (Nat.not_lt_zero _)
  | succ n ih =>
    have hgone := f.gone_add_length
    rw [sweepCounting, sweepWithin]
    by_cases hlength : f.sweepOnce.instructions.length = f.instructions.length
    · have hsettled := settled_of_length hlength
      rw [if_pos (by omega), if_pos hlength]
      exact ⟨hsettled, hsettled, Nat.zero_add _⟩
    · obtain ⟨hfirst, hsettled, hcount⟩ := ih (f := f.sweepOnce) (by omega)
      rw [if_neg (by omega), if_neg hlength]
      exact ⟨hfirst, hsettled, by dsimp only; omega⟩

/-! ## What is spared -/

/-- Whatever sustains itself is among some instructions. -/
def Spares (f : Function) (keep : Instruction → Bool) : Prop :=
  ∀ K, f.Sustained K → K ⊆ f.sites keep

theorem spares_true : f.Spares fun _ => true := fun K hK s hs => by
  obtain ⟨i, hi, -⟩ := hK s hs
  exact ⟨i, hi, rfl⟩

theorem mem_usedValues_of_sites {name : String} {s : CodePoint} {j : Instruction}
    (hs : s ∈ f.sites keep) (hj : f.at? s = some j) (hname : .value name ∈ j.action.operands) :
    name ∈ (f.filterInstructions keep).usedValues := by
  obtain ⟨i, hi, hkeep⟩ := hs
  obtain rfl := Option.some.inj (hi.symm.trans hj)
  refine mem_usedValues.2 ⟨i, ?_, hname⟩
  rw [instructions_filterInstructions, List.mem_filter]
  exact ⟨mem_instructions_iff_at?.2 ⟨s, hi⟩, hkeep⟩

/-- A round spares what was spared before: whatever uses a value of it is still there. -/
theorem Spares.round (h : f.Spares keep) :
    f.Spares fun i => keep i && isNeeded (f.filterInstructions keep).usedValues i := by
  intro K hK s hs
  obtain ⟨i, hi, hkeep⟩ := h K hK hs
  obtain ⟨i', hi', hused⟩ := hK s hs
  obtain rfl := Option.some.inj (hi.symm.trans hi')
  refine ⟨i, hi, ?_⟩
  dsimp only
  rw [hkeep, Bool.true_and, isNeeded]
  cases hdead : i.action.isDeadIfUnused with
  | false => rfl
  | true =>
    obtain ⟨name, hname, t, ht, j, hj, hoperand⟩ := hused hdead
    have hmem := mem_usedValues_of_sites (h K hK ht) hj hoperand
    simp [hname, hmem]

/-- The rounds leave some of the instructions, and spare what sustains itself. -/
theorem Spares.sweepWithin (n : Nat) (h : f.Spares keep) : ∃ kept, f.Spares kept ∧
    (f.filterInstructions keep).sweepWithin n = f.filterInstructions kept := by
  induction n generalizing keep with
  | zero => exact ⟨keep, h, rfl⟩
  | succ n ih =>
    rw [Function.sweepWithin]
    split
    · exact ⟨keep, h, rfl⟩
    · rw [sweepOnce, filterInstructions_filterInstructions]
      exact ih h.round

/-- What a settled function has left sustains itself. -/
theorem Settled.sustained (h : (f.filterInstructions keep).Settled) :
    f.Sustained (f.sites keep) := by
  rintro s ⟨i, hi, hkeep⟩
  refine ⟨i, hi, fun hdead => ?_⟩
  have hmem : i ∈ (f.filterInstructions keep).instructions := by
    rw [instructions_filterInstructions, List.mem_filter]
    exact ⟨mem_instructions_iff_at?.2 ⟨s, hi⟩, hkeep⟩
  have hneeded := h.needed hmem
  rw [isNeeded, hdead, Bool.not_true, Bool.false_or, Option.any_eq_true] at hneeded
  obtain ⟨name, hname, hused⟩ := hneeded
  obtain ⟨j, hj, hoperand⟩ := mem_usedValues.1 (List.contains_iff_mem.1 hused)
  rw [instructions_filterInstructions, List.mem_filter] at hj
  obtain ⟨t, ht⟩ := mem_instructions_iff_at?.1 hj.1
  exact ⟨name, hname, t, ⟨j, ht, hj.2⟩, j, ht, hoperand⟩

/-- Sweeping leaves the greatest set of instructions that sustains itself, every one as it is
    and where it is, and counts the others. A second sweep finds nothing. -/
theorem sweep_isGreatest (f : Function) : ∃ keep : Instruction → Bool,
    IsGreatest {K | f.Sustained K} (f.sites keep) ∧
      f.sweepInstructions = f.filterInstructions keep ∧
      f.sweep = (f.sweepInstructions, f.instructions.countP fun i => !keep i) ∧
      f.sweepInstructions.sweep = (f.sweepInstructions, 0) := by
  obtain ⟨keep, hspares, hswept⟩ := spares_true.sweepWithin (f := f) (f.instructions.length + 1)
  rw [filterInstructions_true] at hswept
  obtain ⟨hfirst, hsettled, hcount⟩ := sweepCounting_spec (Nat.lt_succ_self f.instructions.length)
  refine ⟨keep, ⟨?_, fun K hK => hspares K hK⟩, hswept, Prod.ext hfirst ?_, hsettled.sweep⟩
  · exact Settled.sustained (hswept ▸ hsettled)
  · have hsplit := List.length_eq_length_filter_add (l := f.instructions) keep
    rw [hswept, instructions_filterInstructions] at hcount
    rw [List.countP_eq_length_filter]
    exact Nat.add_right_cancel (hcount.trans (hsplit.trans (Nat.add_comm _ _)))

/-- Values that are used by each other alone stay. -/
example :
    let sum (result lhs : String) : Instruction :=
      ⟨some result, .binary .add .i32 (.value lhs) (.int 1), false, none⟩
    let f (is : List Instruction) : Function := ⟨"f", .external, .void, [], [⟨"entry", is⟩], none⟩
    (f [sum "a" "b", sum "b" "a", sum "c" "a", sum "d" "c"]).sweep =
      (f [sum "a" "b", sum "b" "a"], 2) := by
  decide

end Function

end Offload.Device
