import Offload.Proofs.Ir.Rewritten
import Offload.Proofs.Validity

/-!
# What the check of use chains finds

The check of use chains is for contexts whose operands were written to, past the
chains (`Edits`). All that it needs of such a context is that it is sound but for
operands and chains. Then it finds nothing iff each slot under the root is in the chain
of its value, and the chains that it *regards* are right about what is under the root
(`Tracked`). Regarded are the values defined under the root and those held there
(`Regards`).

A chain that is not regarded may name an operation under the root all the same: its
value is defined elsewhere, and no operation under the root holds it any more. Such a
stray entry is not found. So slots and chains agree under the root (`Exact`) iff the
check finds nothing and there are no stray entries (`useChains_exact_iff`).
-/

namespace Offload.Context

variable {ctx : Context} {root : OpRef}

/-! ## What is checked -/

/-- The chain of a value is looked at: the value is a result or an operand of an
    operation under the root, or an argument of a block there. -/
def Regards (ctx : Context) (root : OpRef) (v : ValueRef) : Prop :=
  (∃ o, ctx.Within o root ∧ (v ∈ ctx.results o ∨ v ∈ ctx.operandsOf o)) ∨
    ∃ o, ctx.Within o root ∧ ∃ b, ctx.holder b = some o ∧ v ∈ ctx.args b

/-- What is held under a root is in the chains, and the chains that are looked at name
    live operations, and of those under the root only what they hold. -/
structure Tracked (ctx : Context) (root : OpRef) : Prop where
  held : ∀ o, ctx.Within o root → ∀ i v, (ctx.operandsOf o)[i]? = some v → ⟨o, i⟩ ∈ ctx.uses.get v
  live : ∀ v, ctx.Regards root v → ∀ u ∈ ctx.uses.get v,
    ctx.HasOp u.user ∧ ctx.isErased u.user = false
  exact : ∀ v, ctx.Regards root v → ∀ u ∈ ctx.uses.get v, ctx.Within u.user root →
    (ctx.operandsOf u.user)[u.slot]? = some v

/-- An operation under a root has a value in a slot iff the chain of the value has that
    slot. -/
def Exact (ctx : Context) (root : OpRef) : Prop :=
  ∀ o, ctx.Within o root → ∀ i v,
    (⟨o, i⟩ : Use) ∈ ctx.uses.get v ↔ (ctx.operandsOf o)[i]? = some v

/-- A chain that is not looked at names an operation under the root. -/
def Strays (ctx : Context) (root : OpRef) : Prop :=
  ∃ v, ¬ctx.Regards root v ∧ ∃ u ∈ ctx.uses.get v, ctx.Within u.user root

theorem Tracked.exact_iff (h : ctx.Tracked root) : ctx.Exact root ↔ ¬ctx.Strays root := by
  constructor
  · rintro hexact ⟨v, hv, u, hu, hw⟩
    exact hv (.inl ⟨u.user, hw, .inr (List.mem_of_getElem? ((hexact u.user hw u.slot v).1 hu))⟩)
  · intro hstray o hw i v
    refine ⟨fun hu => h.exact v ?_ ⟨o, i⟩ hu hw, h.held o hw i v⟩
    by_contra hv
    exact hstray ⟨v, hv, ⟨o, i⟩, hu, hw⟩

/-! ## The parts of the check -/

theorem definedBy_bare (o : OpRef) : ctx.bare.definedBy o = ctx.definedBy o := by
  rw [definedBy, definedBy, op_bare, results_bare]
  cases ctx.op o <;> rfl

theorem holder_eq_some_iff (h : ctx.bare.Sound) {b : BlockRef} {o : OpRef} :
    ctx.holder b = some o ↔ ∃ r ∈ ctx.regionsOf o, b ∈ ctx.blocksOf r := by
  have hregions : ctx.bare.regionsOf o = ctx.regionsOf o :=
    congrFun (readOp_bare _ _ fun _ => rfl) o
  rw [holder, Option.bind_eq_some_iff]
  refine exists_congr fun r => ?_
  rw [and_comm, ← hregions, ← h.coherent.regions.owner_iff]
  exact and_congr_right fun _ => h.coherent.blocks.owner_iff b r

theorem mem_definedBy (h : ctx.bare.Sound) {o : OpRef} {vs : List ValueRef}
    (hrun : ctx.definedBy o = .ok vs) (v : ValueRef) :
    v ∈ vs ↔ v ∈ ctx.results o ∨ ∃ b, ctx.holder b = some o ∧ v ∈ ctx.args b := by
  obtain ⟨row, hrow, hrun⟩ := Outcome.bind_eq_ok.1 hrun
  obtain ⟨args, hargs, hrun⟩ := Outcome.bind_eq_ok.1 hrun
  have hflat : args = row.regions.flatMap fun r => (ctx.blocksOf r).flatMap ctx.args := by
    refine Outcome.eq_flatMap_of_flatMapM (fun r ys hr => ?_) hargs
    obtain ⟨region, hregion, hr⟩ := Outcome.bind_eq_ok.1 hr
    rw [blocksOf, readRegion_of_region hregion, Outcome.pure_eq_ok.1 hr]
  have hregions : ctx.regionsOf o = row.regions := readOp_of_op hrow _ _
  rw [← Outcome.pure_eq_ok.1 hrun, List.mem_append, hflat, ← hregions]
  simp only [List.mem_flatMap, holder_eq_some_iff h]
  refine or_congr_right ?_
  constructor
  · rintro ⟨r, hr, b, hb, hv⟩
    exact ⟨b, ⟨r, hr, hb⟩, hv⟩
  · rintro ⟨b, ⟨r, hr, hb⟩, hv⟩
    exact ⟨r, hr, b, hb, hv⟩

theorem missingUse?_eq_none_iff {s : Slot} :
    ctx.missingUse? s = .ok none ↔ s.use ∈ ctx.uses.get s.value := by
  rw [missingUse?]
  split
  · rename_i hs
    simpa using hs
  · rename_i hs
    cases ctx.kind s.use.user <;> simpa using hs

theorem falseUse?_eq_none_iff {slots : List Slot} {v : ValueRef} {u : Use} :
    ctx.falseUse? root slots v u = .ok none ↔ ctx.isErased u.user = false ∧
      ∃ answer, ctx.isAncestor root u.user = .ok answer ∧ (answer = true → ⟨v, u⟩ ∈ slots) := by
  rw [falseUse?]
  split
  · rename_i he
    simp [he]
  · rename_i hlive
    rw [and_iff_right (by simpa using hlive), Outcome.bind_eq_ok]
    refine exists_congr fun answer => and_congr_right fun _ => ?_
    cases answer with
    | false => simp
    | true => by_cases hs : (⟨v, u⟩ : Slot) ∈ slots <;> simp [hs]

/-- The way up from an operation is looked at only if there is such an operation, or it
    is the one looked for. -/
theorem hasOp_of_isAncestor {a o : OpRef} {answer : Bool} (ha : ctx.HasOp a)
    (hrun : ctx.isAncestor a o = .ok answer) : ctx.HasOp o := by
  rw [isAncestor, isAncestorWithin] at hrun
  split at hrun
  · rename_i ho
    rwa [ho]
  · obtain ⟨p, hp, -⟩ := Outcome.bind_eq_ok.1 hrun
    exact (parentOp_eq_ok hp).1

/-! ## The check -/

/-- What the check goes through: the operations under the root, the slots of these, and
    the values that they and their blocks define. -/
structure Surveys (ctx : Context) (root : OpRef) (slots : List Slot) (defined : List ValueRef) :
    Prop where
  run : ∃ tree, ctx.subtree root = .ok tree ∧ tree.flatMapM ctx.slotsOf = .ok slots ∧
    tree.flatMapM ctx.definedBy = .ok defined
  mem_slots : ∀ s : Slot, s ∈ slots ↔ ctx.Within s.use.user root ∧
    (ctx.operandsOf s.use.user)[s.use.slot]? = some s.value
  regards_iff : ∀ v, ctx.Regards root v ↔ v ∈ defined ∨ ∃ s ∈ slots, s.value = v

theorem mem_defined_iff (h : ctx.bare.Sound) {tree : List OpRef} {defined : List ValueRef}
    (hwithin : ∀ o, o ∈ tree ↔ ctx.Within o root)
    (hrun : tree.flatMapM ctx.definedBy = .ok defined) (v : ValueRef) :
    v ∈ defined ↔ ∃ o, ctx.Within o root ∧
      (v ∈ ctx.results o ∨ ∃ b, ctx.holder b = some o ∧ v ∈ ctx.args b) := by
  obtain ⟨lists, hlists, rfl⟩ := Outcome.flatMapM_eq_ok.1 hrun
  rw [List.mem_flatten]
  constructor
  · rintro ⟨vs, hvs, hv⟩
    obtain ⟨o, ho, hrun⟩ := Outcome.exists_of_mem_right hlists hvs
    exact ⟨o, (hwithin o).1 ho, (mem_definedBy h hrun v).1 hv⟩
  · rintro ⟨o, hw, hv⟩
    obtain ⟨vs, hvs, hrun⟩ := Outcome.exists_of_mem_left hlists ((hwithin o).2 hw)
    exact ⟨vs, hvs, (mem_definedBy h hrun v).2 hv⟩

/-- What is regarded is told by slots and definitions under the root. -/
theorem regards_iff_mem {slots : List Slot} {defined : List ValueRef}
    (hslots : ∀ s : Slot, s ∈ slots ↔ ctx.Within s.use.user root ∧
      (ctx.operandsOf s.use.user)[s.use.slot]? = some s.value)
    (hdefined : ∀ v, v ∈ defined ↔ ∃ o, ctx.Within o root ∧
      (v ∈ ctx.results o ∨ ∃ b, ctx.holder b = some o ∧ v ∈ ctx.args b)) (v : ValueRef) :
    ctx.Regards root v ↔ v ∈ defined ∨ ∃ s ∈ slots, s.value = v := by
  have hheld : (∃ s ∈ slots, s.value = v) ↔ ∃ o, ctx.Within o root ∧ v ∈ ctx.operandsOf o := by
    constructor
    · rintro ⟨s, hs, rfl⟩
      exact ⟨s.use.user, ((hslots s).1 hs).1, List.mem_of_getElem? ((hslots s).1 hs).2⟩
    · rintro ⟨o, hw, hv⟩
      obtain ⟨i, hi⟩ := List.mem_iff_getElem?.1 hv
      exact ⟨⟨v, ⟨o, i⟩⟩, (hslots _).2 ⟨hw, hi⟩, rfl⟩
  rw [hheld, hdefined, Regards]
  simp only [and_or_left, exists_or]
  exact or_right_comm

theorem exists_surveys (h : ctx.bare.Sound) (hroot : ctx.HasOp root) :
    ∃ slots defined, ctx.Surveys root slots defined := by
  have hc := h.coherent
  obtain ⟨tree, htree⟩ := h.grounded.subtree_ok hc (hasOp_bare.2 hroot)
  have hwithin (o : OpRef) : o ∈ tree ↔ ctx.Within o root :=
    (hc.mem_subtree_iff htree).trans within_bare
  have hex (o : OpRef) (ho : o ∈ tree) : ctx.HasOp o :=
    hasOp_bare.1 (hc.hasOp_of_within' (within_bare.2 ((hwithin o).1 ho)) (hasOp_bare.2 hroot))
  obtain ⟨slots, hslots⟩ : ∃ slots, tree.flatMapM ctx.slotsOf = .ok slots :=
    Outcome.flatMapM_ok fun o ho => ⟨_, slotsOf_ok (hex o ho)⟩
  obtain ⟨defined, hdefined⟩ : ∃ defined, tree.flatMapM ctx.definedBy = .ok defined :=
    Outcome.flatMapM_ok fun o ho => definedBy_bare o ▸ hc.definedBy_ok (hasOp_bare.2 (hex o ho))
  have hmem (s : Slot) : s ∈ slots ↔ ctx.Within s.use.user root ∧
      (ctx.operandsOf s.use.user)[s.use.slot]? = some s.value := by
    rw [mem_slotsOf_iff hex hslots, hwithin]
  exact ⟨slots, defined, ⟨tree, subtree_bare root ▸ htree, hslots, hdefined⟩, hmem,
    regards_iff_mem hmem (mem_defined_iff h hwithin hdefined)⟩

/-- The check finds nothing iff it finds nothing at a slot, and nothing at an entry of a
    chain that it looks at. -/
theorem Surveys.checkUseChains_eq_nil {slots : List Slot} {defined : List ValueRef}
    (h : ctx.Surveys root slots defined) : ctx.checkUseChains root = .ok [] ↔
      (∀ s ∈ slots, ctx.missingUse? s = .ok none) ∧
        ∀ v, ctx.Regards root v → ∀ u ∈ ctx.uses.get v,
          ctx.falseUse? root slots.eraseDups v u = .ok none := by
  obtain ⟨tree, htree, hslots, hdefined⟩ := h.run
  have hmissing : (∀ s ∈ slots, ctx.missingUse? s = .ok none) ↔
      slots.eraseDups.filterMapM ctx.missingUse? = .ok [] := by
    simp only [Outcome.filterMapM_eq_nil, List.mem_eraseDups]
  have hwrong : (∀ v, ctx.Regards root v → ∀ u ∈ ctx.uses.get v,
      ctx.falseUse? root slots.eraseDups v u = .ok none) ↔
        (defined ++ slots.eraseDups.map Slot.value).eraseDups.flatMapM (fun v =>
          (ctx.uses.get v).filterMapM (ctx.falseUse? root slots.eraseDups v)) = .ok [] := by
    simp only [Outcome.flatMapM_eq_nil, Outcome.filterMapM_eq_nil, List.mem_eraseDups,
      List.mem_append, List.mem_map, h.regards_iff]
  rw [hmissing, hwrong]
  simp only [checkUseChains, htree, hslots, hdefined, Outcome.ok_bind, Outcome.bind_eq_ok,
    Outcome.pure_eq_ok, List.append_eq_nil_iff]
  constructor
  · rintro ⟨missing, h₁, wrong, h₂, rfl, rfl⟩
    exact ⟨h₁, h₂⟩
  · rintro ⟨h₁, h₂⟩
    exact ⟨[], h₁, [], h₂, rfl, rfl⟩

theorem checkUseChains_eq_nil_iff (h : ctx.bare.Sound) (hroot : ctx.HasOp root) :
    ctx.checkUseChains root = .ok [] ↔ ctx.Tracked root := by
  obtain ⟨slots, defined, hs⟩ := exists_surveys h hroot
  have hancestor {o : OpRef} (ho : ctx.HasOp o) :
      ∃ answer, ctx.isAncestor root o = .ok answer ∧ (answer = true ↔ ctx.Within o root) := by
    obtain ⟨answer, hrun⟩ :=
      h.coherent.isAncestorWithin_ok root (n := ctx.bare.ops.size + 1) (hasOp_bare.2 ho)
    have hiff := h.grounded.isAncestor_iff h.coherent (a := root) (hasOp_bare.2 ho)
    rw [isAncestor, hrun, within_bare] at hiff
    exact ⟨answer, isAncestor_bare root o ▸ hrun, by simpa using hiff⟩
  rw [hs.checkUseChains_eq_nil]
  simp only [missingUse?_eq_none_iff, falseUse?_eq_none_iff, List.mem_eraseDups]
  constructor
  · rintro ⟨hheld, hentries⟩
    refine ⟨fun o hw i v hv => hheld ⟨v, ⟨o, i⟩⟩ ((hs.mem_slots _).2 ⟨hw, hv⟩),
      fun v hv u hu => ?_, fun v hv u hu hw => ?_⟩
    · obtain ⟨hlive, answer, hrun, -⟩ := hentries v hv u hu
      exact ⟨hasOp_of_isAncestor hroot hrun, hlive⟩
    · obtain ⟨-, answer, hrun, hslot⟩ := hentries v hv u hu
      obtain ⟨answer', hrun', hiff⟩ := hancestor (hasOp_of_isAncestor hroot hrun)
      obtain rfl := Except.ok.inj (hrun.symm.trans hrun')
      exact ((hs.mem_slots ⟨v, u⟩).1 (hslot (hiff.2 hw))).2
  · intro ht
    refine ⟨fun s hslot => ?_, fun v hv u hu => ?_⟩
    · obtain ⟨hw, hv⟩ := (hs.mem_slots s).1 hslot
      exact ht.held s.use.user hw s.use.slot s.value hv
    · obtain ⟨huser, hlive⟩ := ht.live v hv u hu
      obtain ⟨answer, hrun, hiff⟩ := hancestor huser
      exact ⟨hlive, answer, hrun, fun e => (hs.mem_slots ⟨v, u⟩).2
        ⟨hiff.1 e, ht.exact v hv u hu (hiff.1 e)⟩⟩

/-- The check finds nothing iff what it looks at is right; and then slots and chains
    agree under the root iff no entry strays. -/
theorem useChains_exact_iff {ctx₀ : Context} (h : ctx₀.Sound) (hedits : ctx₀.Edits ctx)
    (hroot : ctx.HasOp root) :
    (ctx.checkUseChains root = .ok [] ↔ ctx.Tracked root) ∧
      (ctx.checkUseChains root = .ok [] → (ctx.Exact root ↔ ¬ctx.Strays root)) := by
  have hiff := checkUseChains_eq_nil_iff (hedits.sound_bare h) hroot
  exact ⟨hiff, fun hnil => (hiff.1 hnil).exact_iff⟩

/-- A value has a user, whose operands are then cleared past the chain. The check of the
    user finds nothing, and the value still has the entry. -/
theorem useChains_exact_iff_cleared : ∃ ctx : Context,
    (empty.Sound ∧ empty.Edits ctx ∧ ctx.HasOp ⟨1⟩) ∧
    (ctx.operandsOf ⟨1⟩ = [] ∧ ctx.uses.get ⟨0⟩ = [⟨⟨1⟩, 0⟩]) ∧
    ctx.checkUseChains ⟨1⟩ = .ok [] ∧ ctx.Tracked ⟨1⟩ ∧ ctx.Strays ⟨1⟩ ∧ ¬ctx.Exact ⟨1⟩ := by
  let define : Blueprint := ⟨default, ⟨"test", "def"⟩, [], [⟨0⟩], .empty, []⟩
  let use : Blueprint := ⟨default, ⟨"test", "use"⟩, [⟨0⟩], [], .empty, []⟩
  let ctx₁ := (empty.addOp define).1
  let ctx₂ := (ctx₁.addOp use).1
  let ctx₃ := ctx₂.modifyOp ⟨1⟩ fun row => { row with operands := [] }
  have run₁ : empty.createOp define = .ok (ctx₁, ⟨0⟩) := rfl
  have run₂ : ctx₁.createOp use = .ok (ctx₂, ⟨1⟩) := rfl
  have hedits : empty.Edits ctx₃ :=
    ((Relation.ReflTransGen.single (.call (.createOp run₁))).tail (.call (.createOp run₂))).tail
      (.writeOperands ⟨1⟩ [])
  have hop : ctx₃.HasOp ⟨1⟩ := by decide
  have hempty : ctx₃.operandsOf ⟨1⟩ = [] := rfl
  have hentry : ctx₃.uses.get ⟨0⟩ = [⟨⟨1⟩, 0⟩] := rfl
  have hnil : ctx₃.checkUseChains ⟨1⟩ = .ok [] := Outcome.eq_ok_of_toOption (by decide +kernel)
  obtain ⟨hiff, hexact⟩ := useChains_exact_iff sound_empty hedits hop
  have hnot : ¬ctx₃.Exact ⟨1⟩ := fun he => by
    have := (he ⟨1⟩ (.refl _) 0 ⟨0⟩).1 (hentry ▸ List.mem_cons_self)
    rw [hempty] at this
    cases this
  exact ⟨ctx₃, ⟨sound_empty, hedits, hop⟩, ⟨hempty, hentry⟩, hnil, hiff.1 hnil,
    not_not.1 fun hn => hnot ((hexact hnil).2 hn), hnot⟩

end Offload.Context
