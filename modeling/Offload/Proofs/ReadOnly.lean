import Offload.Proofs.Effects
import Offload.Proofs.Ir.Mirror
import Offload.Proofs.Pattern.Success
import Offload.Proofs.Source.Build
import Offload.Proofs.Source.Order

/-!
# What being read-only depends on

Whether an operation is read-only depends on the kinds of certain operations in its
tree alone: the operation itself, and what is directly in one of them that has
recursive effects (`Consults`). They all have to be of kinds that only read
(`Sound.isReadOnly_eq_true_iff`).

So two operations get the same answer if what they consult can be matched
(`isReadOnly_congr`), as it can if operations are put in another order in their
blocks (`Reordered`) or copied, and one that consults something that is not read-only
is not read-only itself, wherever that has been put (`Puts`).
-/

namespace Offload

/-- A kind is known to do nothing but read: all effects that it declares are reads, or it
    declares none and does what is nested in it. -/
def OpKind.OnlyReads (kind : OpKind) : Prop :=
  (∃ effects, kind.effects? = some effects ∧ ∀ effect ∈ effects, effect = .read) ∨
    kind.effects? = none ∧ kind.isRecursive

theorem OpKind.onlyReads_iff {kind : OpKind} : Context.onlyReads kind ↔ kind.OnlyReads := by
  rw [Context.onlyReads, OnlyReads]
  cases kind.effects? <;> simp

namespace Context

variable {ctx ctx' : Context} {o p q x c : OpRef} {b : BlockRef}

/-- The operations that are looked at to tell whether one is read-only: itself, and what is
    directly in one of them that has recursive effects. -/
inductive Consults (ctx : Context) (o : OpRef) : OpRef → Prop
  | self : ctx.Consults o o
  | child {p c : OpRef} (hp : ctx.Consults o p) (hkind : (ctx.kindOf p).isRecursive)
      (hc : c ∈ ctx.childrenOf p) : ctx.Consults o c

namespace Consults

theorem trans (ho : ctx.Consults o p) (hp : ctx.Consults p x) : ctx.Consults o x := by
  induction hp with
  | self => exact ho
  | child _ hkind hc ih => exact ih.child hkind hc

theorem within (h : ctx.Coherent) (ho : ctx.Consults o x) : ctx.Within x o := by
  induction ho with
  | self => exact .refl o
  | child _ _ hc ih => exact (within_of_above (h.mem_childrenOf.1 hc)).trans ih

end Consults

/-! ## The answer -/

theorem exists_of_isReadOnlyWithin_eq_false {n : Nat}
    (hrun : ctx.isReadOnlyWithin n o = .ok false) :
    ∃ x, ctx.Consults o x ∧ ¬(ctx.kindOf x).OnlyReads := by
  induction n generalizing o with
  | zero => simp [isReadOnlyWithin] at hrun
  | succ n ih =>
    by_cases hreads : (ctx.kindOf o).OnlyReads
    case neg => exact ⟨o, .self, hreads⟩
    rw [isReadOnlyWithin] at hrun
    obtain ⟨kind, hkind, hrun⟩ := Outcome.bind_eq_ok.1 hrun
    obtain ⟨-, rfl⟩ := kind_eq_ok hkind
    rw [OpKind.onlyReads_iff.2 hreads] at hrun
    split at hrun
    case isFalse => cases hrun
    rename_i hrecursive
    -- the kind only reads, so something inside does not
    obtain ⟨row, hrow, hrun⟩ := Outcome.bind_eq_ok.1 hrun
    obtain ⟨inside, hinside, hrun⟩ := Outcome.bind_eq_ok.1 hrun
    cases inside with
    | true => cases hrun
    | false =>
      obtain ⟨r, hr, hblocks⟩ := Outcome.exists_of_allM_eq_false hinside
      obtain ⟨region, hregion, hblocks⟩ := Outcome.bind_eq_ok.1 hblocks
      obtain ⟨b, hb, hops⟩ := Outcome.exists_of_allM_eq_false hblocks
      obtain ⟨block, hblock, hops⟩ := Outcome.bind_eq_ok.1 hops
      obtain ⟨c, hc, hfalse⟩ := Outcome.exists_of_allM_eq_false hops
      have hchild : c ∈ ctx.childrenOf o := by
        simp only [childrenOf, List.mem_flatMap]
        refine ⟨r, ?_, b, ?_, ?_⟩
        · rwa [regionsOf, readOp_of_op hrow]
        · rwa [blocksOf, readRegion_of_region hregion]
        · rwa [opsOf, readBlock_of_block hblock]
      obtain ⟨x, hx, hkind⟩ := ih hfalse
      exact ⟨x, (Consults.self.child hrecursive hchild).trans hx, hkind⟩

/-- What a read-only operation consults is read-only. -/
theorem Consults.isReadOnlyWithin (h : ctx.Coherent) {n : Nat}
    (hrun : ctx.isReadOnlyWithin n o = .ok true) (hx : ctx.Consults o x) :
    ∃ m, ctx.isReadOnlyWithin m x = .ok true := by
  induction hx with
  | self => exact ⟨n, hrun⟩
  | child _ hkind hc ih =>
    obtain ⟨m, hm⟩ := ih
    cases m with
    | zero => simp [Context.isReadOnlyWithin] at hm
    | succ m => exact ⟨m, h.isReadOnlyWithin_child hm hkind (h.mem_childrenOf.1 hc)⟩

theorem hasOp_of_isReadOnly {answer : Bool} (hrun : ctx.isReadOnly o = .ok answer) :
    ctx.HasOp o := by
  obtain ⟨kind, hkind, -⟩ := Outcome.bind_eq_ok.1 hrun
  exact (kind_eq_ok hkind).1

/-- Every operation gets an answer, and it is read-only iff all that it consults is of kinds
    that only read. -/
theorem Sound.isReadOnly_iff_consults (h : ctx.Sound) (ho : ctx.HasOp o) :
    ∃ answer, ctx.isReadOnly o = .ok answer ∧
      (answer = true ↔ ∀ x, ctx.Consults o x → (ctx.kindOf x).OnlyReads) := by
  obtain ⟨answer, hrun⟩ := h.isReadOnly_ok ho
  refine ⟨answer, hrun, fun htrue x hx => ?_, fun hall => ?_⟩
  · rw [htrue] at hrun
    obtain ⟨m, hm⟩ := hx.isReadOnlyWithin h.coherent hrun
    exact OpKind.onlyReads_iff.1 (isReadOnlyWithin_onlyReads hm)
  · by_contra hfalse
    rw [Bool.not_eq_true] at hfalse
    rw [hfalse] at hrun
    obtain ⟨x, hx, hkind⟩ := exists_of_isReadOnlyWithin_eq_false hrun
    exact hkind (hall x hx)

/-- An operation that consults one that is not known to only read is not read-only. -/
theorem Sound.isReadOnly_eq_false (h : ctx.Sound) (ho : ctx.HasOp o) (hx : ctx.Consults o x)
    (hkind : ¬(ctx.kindOf x).OnlyReads) : ctx.isReadOnly o = .ok false := by
  obtain ⟨answer, hrun, hiff⟩ := h.isReadOnly_iff_consults ho
  cases answer with
  | false => exact hrun
  | true => exact absurd (hiff.1 rfl x hx) hkind

/-! ## What is matched -/

/-- Operations that are matched get the same answer, if what is directly in matched operations
    can be matched too. -/
theorem isReadOnly_congr (h : ctx.Sound) (h' : ctx'.Sound) (matched : OpRef → OpRef → Prop)
    (hkind : ∀ p p', matched p p' → ctx'.kindOf p' = ctx.kindOf p)
    (hdown : ∀ p p', matched p p' → ∀ c ∈ ctx.childrenOf p, ∃ c' ∈ ctx'.childrenOf p', matched c c')
    (hback : ∀ p p', matched p p' → ∀ c' ∈ ctx'.childrenOf p', ∃ c ∈ ctx.childrenOf p, matched c c')
    {o' : OpRef} (ho : ctx.HasOp o) (ho' : ctx'.HasOp o') (htop : matched o o') :
    ctx'.isReadOnly o' = ctx.isReadOnly o := by
  have hthere {x : OpRef} (hx : ctx.Consults o x) : ∃ x', ctx'.Consults o' x' ∧ matched x x' := by
    induction hx with
    | self => exact ⟨o', .self, htop⟩
    | child _ hrecursive hc ih =>
      obtain ⟨p', hp', hmatch⟩ := ih
      obtain ⟨c', hc', hnext⟩ := hdown _ p' hmatch _ hc
      exact ⟨c', hp'.child (hkind _ p' hmatch ▸ hrecursive) hc', hnext⟩
  have hhere {x' : OpRef} (hx : ctx'.Consults o' x') : ∃ x, ctx.Consults o x ∧ matched x x' := by
    induction hx with
    | self => exact ⟨o, .self, htop⟩
    | child _ hrecursive hc ih =>
      obtain ⟨p, hp, hmatch⟩ := ih
      obtain ⟨c, hc, hnext⟩ := hback p _ hmatch _ hc
      exact ⟨c, hp.child (hkind p _ hmatch ▸ hrecursive) hc, hnext⟩
  obtain ⟨answer, hrun, hiff⟩ := h.isReadOnly_iff_consults ho
  obtain ⟨answer', hrun', hiff'⟩ := h'.isReadOnly_iff_consults ho'
  rw [hrun, hrun']
  refine congrArg Except.ok (Bool.eq_iff_iff.2 (hiff'.trans (Iff.trans ?_ hiff.symm)))
  constructor
  · intro hall x hx
    obtain ⟨x', hx', hmatch⟩ := hthere hx
    exact hkind x x' hmatch ▸ hall x' hx'
  · intro hall x' hx'
    obtain ⟨x, hx, hmatch⟩ := hhere hx'
    exact hkind x x' hmatch ▸ hall x hx

/-! ### Another order -/

/-- Contexts that differ in nothing but the order of the operations in their blocks. -/
structure Reordered (ctx ctx' : Context) : Prop where
  relisted : ctx.Relisted ctx'
  blockOf : ctx'.blockOf = ctx.blockOf
  opsOf : ∀ b, (ctx'.opsOf b).Perm (ctx.opsOf b)

theorem Reordered.sound (h : ctx.Sound) (hr : ctx.Reordered ctx') : ctx'.Sound := by
  have habove := hr.relisted.inPlace.above hr.blockOf
  refine ⟨hr.relisted.coherent h.coherent ?_, h.grounded.mono fun o p hp => by rwa [habove] at hp⟩
  rw [hr.blockOf]
  exact ⟨fun p b => (h.coherent.ops.owner_iff p b).trans (hr.opsOf b).mem_iff.symm,
    fun b => (hr.opsOf b).nodup_iff.2 (h.coherent.ops.nodup b)⟩

/-- An operation that is moved within its block changes nothing but the order there. -/
theorem Put.reordered {l : List OpRef} (h : ctx.Coherent) (hput : ctx.Put x b l ctx')
    (hx : ctx.blockOf x = some b) : ctx.Reordered ctx' where
  relisted := hput.relisted
  blockOf := by
    funext p
    rw [hput.blockOf]
    split
    · rename_i hp
      rw [hp, hx]
    · rfl
  opsOf c := by
    have hmem := (h.ops.owner_iff x b).1 hx
    rw [hput.opsOf]
    split
    · rename_i hc
      rw [hc]
      refine hput.perm.trans ?_
      have herase : (ctx.opsOf b).erase x = (ctx.opsOf b).filter (· ≠ x) := by
        rw [(h.ops.nodup b).erase_eq_filter x]
        exact List.filter_congr fun p _ => (decide_not (p := p = x)).symm
      rw [← herase]
      exact (List.perm_cons_erase hmem).symm
    · rename_i hc
      rw [filter_ne_self fun hm => hc (h.ops.owner_unique hm hmem)]

theorem Sound.isReadOnly_reordered (h : ctx.Sound) (hr : ctx.Reordered ctx') (ho : ctx.HasOp o) :
    ctx'.isReadOnly o = ctx.isReadOnly o := by
  have habove := hr.relisted.inPlace.above hr.blockOf
  have h' := hr.sound h
  have hchildren (p c : OpRef) : c ∈ ctx'.childrenOf p ↔ c ∈ ctx.childrenOf p := by
    rw [h'.coherent.mem_childrenOf, h.coherent.mem_childrenOf, habove]
  refine isReadOnly_congr h h' (· = ·) ?_ ?_ ?_ ho
    (hr.relisted.inPlace.hasOp.2 ho) rfl
  · rintro p _ rfl
    exact congrFun (hr.relisted.inPlace.readOp _ _ fun _ => rfl) p
  · rintro p _ rfl c hc
    exact ⟨c, (hchildren p c).2 hc, rfl⟩
  · rintro p _ rfl c hc
    exact ⟨c, (hchildren p c).1 hc, rfl⟩

/-! ### Copies -/

theorem Sound.isReadOnly_extends (h : ctx.Sound) (h' : ctx'.Sound) (hext : ctx.Extends ctx')
    (ho : ctx.HasOp o) : ctx'.isReadOnly o = ctx.isReadOnly o := by
  have hchildren {p : OpRef} (hp : ctx.HasOp p) : ctx'.childrenOf p = ctx.childrenOf p :=
    hext.childrenOf h.coherent hp
  have hop {p c : OpRef} (hc : c ∈ ctx.childrenOf p) : ctx.HasOp c :=
    (h.coherent.hasOp_of_above (h.coherent.mem_childrenOf.1 hc)).1
  refine isReadOnly_congr h h' (fun p p' => p = p' ∧ ctx.HasOp p) ?_ ?_ ?_ ho
    (hext.hasOp ho) ⟨rfl, ho⟩
  · rintro p _ ⟨rfl, hp⟩
    exact hext.readOp hp _ _
  · rintro p _ ⟨rfl, hp⟩ c hc
    exact ⟨c, by rwa [hchildren hp], rfl, hop hc⟩
  · rintro p _ ⟨rfl, hp⟩ c hc
    rw [hchildren hp] at hc
    exact ⟨c, hc, rfl, hop hc⟩

/-- A copy is read-only iff what it mirrors is. -/
theorem Cloned.isReadOnly {map map' : ValueMap} {copy : OpRef} (h : ctx.Sound) (ho : ctx.HasOp o)
    (hclone : ctx.Cloned o map ctx' map' copy) : ctx'.isReadOnly copy = ctx.isReadOnly o := by
  let matched (p p' : OpRef) : Prop := ∃ n, CopyOf ctx o map'.apply ctx' n p p'
  have hchildren {p p' : OpRef} (hm : matched p p') :
      List.Forall₂ matched (ctx.childrenOf p) (ctx'.childrenOf p') := by
    obtain ⟨n, hcopy⟩ := hm
    cases n with
    | zero => exact hcopy.elim
    | succ n => exact hcopy.children.imp fun c c' hc => ⟨n, hc⟩
  refine isReadOnly_congr h hclone.sound matched ?_ ?_ ?_ ho hclone.hasOp
    ⟨_, hclone.copyOf⟩
  · rintro p p' ⟨n, hcopy⟩
    exact hcopy.opCopy.kind
  · intro p p' hm c hc
    exact Outcome.exists_of_mem_left (hchildren hm) hc
  · intro p p' hm c' hc'
    exact Outcome.exists_of_mem_right (hchildren hm) hc'

/-! ## Putting in what is not read-only -/

/-- The ways to put an operation into a block. -/
inductive Puts (ctx : Context) (b : BlockRef) (x : OpRef) (ctx' : Context) : Prop
  | last (hrun : ctx.pushOp b x = .ok ctx')
  | at (position : Nat) (hrun : ctx.insertOpAt b position x = .ok ctx')
  | before (anchor : OpRef) (hrun : ctx.insertOpBefore b anchor x = .ok ctx')
  | move (anchor : OpRef) (hanchor : ctx.blockOf anchor = some b)
    (hrun : ctx.moveOpBefore x anchor = .ok ctx')

theorem Puts.put (h : ctx.Coherent) (hputs : ctx.Puts b x ctx') : ∃ l, ctx.Put x b l ctx' := by
  cases hputs with
  | last hrun => exact ⟨_, pushOp_put h hrun⟩
  | «at» position hrun => exact ⟨_, insertOpAt_put h hrun⟩
  | before anchor hrun =>
    obtain ⟨position, -, hrun⟩ := insertOpBefore_eq_ok.1 hrun
    exact ⟨_, insertOpAt_put h hrun⟩
  | move anchor hanchor hrun =>
    obtain ⟨b', before, after, hb', -, -, hput⟩ := moveOpBefore_put h hrun
    obtain rfl := Option.some.inj (hanchor.symm.trans hb')
    exact ⟨_, hput⟩

section Put

variable {l : List OpRef}

theorem Put.kindOf (hput : ctx.Put x b l ctx') : ctx'.kindOf = ctx.kindOf :=
  hput.relisted.inPlace.readOp _ _ fun _ => rfl

/-- What was directly in an operation still is, but for the operation that was put elsewhere. -/
theorem Put.mem_childrenOf (h : ctx.Coherent) (h' : ctx'.Coherent) (hput : ctx.Put x b l ctx')
    (hne : c ≠ x) (hc : c ∈ ctx.childrenOf p) : c ∈ ctx'.childrenOf p := by
  rw [h'.mem_childrenOf, hput.above, if_neg hne]
  exact h.mem_childrenOf.1 hc

/-- What is consulted on the way down to an operation outside the tree of the one that is put
    still is. -/
theorem Put.consults_outside (h : ctx.Coherent) (h' : ctx'.Coherent) (hput : ctx.Put x b l ctx')
    (hp : ctx.Consults q p) (hout : ¬ctx.Within p x) : ctx'.Consults q p := by
  induction hp with
  | self => exact .self
  | child hy hkind hc ih =>
    have hwithin := within_of_above (h.mem_childrenOf.1 hc)
    refine (ih fun hw => hout (hwithin.trans hw)).child (hput.kindOf ▸ hkind)
      (hput.mem_childrenOf h h' ?_ hc)
    rintro rfl
    exact hout (.refl _)

/-- What is consulted in the tree of the operation that is put still is. -/
theorem Put.consults_inside (h : ctx.Sound) (h' : ctx'.Coherent) (hput : ctx.Put x b l ctx')
    (hy : ctx.Consults x c) : ctx'.Consults x c := by
  induction hy with
  | self => exact .self
  | child hy hkind hc ih =>
    refine ih.child (hput.kindOf ▸ hkind) (hput.mem_childrenOf h.coherent h' ?_ hc)
    rintro rfl
    exact h.grounded.not_within_above (h.coherent.mem_childrenOf.1 hc) (hy.within h.coherent)

/-- What is on the way down to where something was put that is not read-only is not
    read-only. -/
theorem Put.isReadOnly_eq_false (h : ctx.Sound) (hput : ctx.Put x b l ctx') {r : RegionRef}
    (hkind : (ctx.kindOf p).isRecursive) (hr : r ∈ ctx.regionsOf p) (hb : b ∈ ctx.blocksOf r)
    (hx : ctx.isReadOnly x = .ok false) (hout : ¬ctx.Within p x) (hq : ctx.HasOp q)
    (hp : ctx.Consults q p) : ctx'.isReadOnly q = .ok false := by
  have hholder := h.coherent.holder_of_mem hr hb
  have h' : ctx'.Sound := h.put hput fun t ht => by
    obtain rfl := Option.some.inj (hholder.symm.trans ht)
    exact hout
  obtain ⟨y, hy, hwrites⟩ := exists_of_isReadOnlyWithin_eq_false hx
  have hchild : x ∈ ctx'.childrenOf p := by
    rw [h'.coherent.mem_childrenOf, hput.above, if_pos rfl, hholder]
  have hdown : ctx'.Consults q p := hput.consults_outside h.coherent h'.coherent hp hout
  have hconsults : ctx'.Consults q y :=
    (hdown.child (hput.kindOf ▸ hkind) hchild).trans (hput.consults_inside h h'.coherent hy)
  exact h'.isReadOnly_eq_false (hput.relisted.inPlace.hasOp.2 hq) hconsults (hput.kindOf ▸ hwrites)

end Put

/-! ## The whole -/

/-- An operation of a sound context is read-only iff all that it consults is of kinds that only
    read. To put something that is not read-only into a block on the way, at any position,
    makes all from the operation down to there not read-only. The order of the operations in
    blocks does not matter, and a copy gets the answer of what it mirrors. -/
theorem Sound.isReadOnly_spec (h : ctx.Sound) (ho : ctx.HasOp o) :
    (∃ answer, ctx.isReadOnly o = .ok answer ∧
      (answer = true ↔ ∀ x, ctx.Consults o x → (ctx.kindOf x).OnlyReads)) ∧
    (∀ p r b x, ctx.Consults o p → (ctx.kindOf p).isRecursive → r ∈ ctx.regionsOf p →
      b ∈ ctx.blocksOf r → ctx.isReadOnly x = .ok false → ¬ctx.Within p x →
      (∀ ctx', ctx.Puts b x ctx' → ∀ q, ctx.Consults o q → ctx.Consults q p →
        ctx'.isReadOnly q = .ok false) ∧
      (ctx.blockOf x = none → ∀ position ≤ (ctx.opsOf b).length,
        ∃ ctx', ctx.insertOpAt b position x = .ok ctx')) ∧
    (∀ ctx', ctx.Reordered ctx' → ctx'.isReadOnly o = ctx.isReadOnly o) ∧
    ∀ map, ∃ ctx' map' copy, ctx.cloneOp o map = .ok (ctx', map', copy) ∧
      ctx'.isReadOnly copy = ctx.isReadOnly o ∧ ctx'.isReadOnly o = ctx.isReadOnly o := by
  refine ⟨h.isReadOnly_iff_consults ho, fun p r b x hp hkind hr hb hx hout => ⟨?_, ?_⟩,
    fun ctx' hr => h.isReadOnly_reordered hr ho, fun map => ?_⟩
  · intro ctx' hputs q hq hqp
    obtain ⟨l, hput⟩ := hputs.put h.coherent
    have hin := h.coherent.hasOp_of_within' (hq.within h.coherent) ho
    exact hput.isReadOnly_eq_false h hkind hr hb hx hout hin hqp
  · intro hfree position hle
    exact ⟨_, insertOpAt_eq_ok.2 ⟨hasOp_of_isReadOnly hx, h.coherent.hasBlock_of_mem hb, hfree,
      hle, rfl⟩⟩
  · obtain ⟨ctx', map', copy, hrun⟩ := h.cloneOp_ok ho map
    obtain ⟨-, hclone⟩ := h.cloneOp_spec hrun
    exact ⟨ctx', map', copy, hrun, hclone.isReadOnly h ho,
      h.isReadOnly_extends hclone.sound hclone.extends ho⟩

/-- A branch that loads, in a parallel region, and a store after that region. -/
def storeAfterLoad : String :=
  "test.top \x7b
  %p = test.address : core.ptr
  omp.parallel \x7b
    scf.if %p \x7b %x = mem.load %p : core.f32 scf.yield \x7d
    omp.terminator
  \x7d
  mem.store %p, %p
\x7d"

set_option maxRecDepth 100000 in
/-- The store moved before the load makes neither the branch nor the parallel region read-only.
    The other order of what is in the branch changes nothing, and neither does copying. -/
theorem isReadOnly_spec_storeAfterLoad : ∃ root ctx,
    Context.empty.read "f" storeAfterLoad = (.ok root, ctx) ∧ ctx.Sound ∧ ctx.HasOp ⟨5⟩ ∧
      ctx.isReadOnly ⟨5⟩ = .ok true ∧ (∀ x, ctx.Consults ⟨5⟩ x → (ctx.kindOf x).OnlyReads) ∧
      (∃ ctx', ctx.moveOpBefore ⟨6⟩ ⟨1⟩ = .ok ctx' ∧ ctx'.isReadOnly ⟨3⟩ = .ok false ∧
        ctx'.isReadOnly ⟨5⟩ = .ok false) ∧
      (∃ ctx', ctx.moveOpBefore ⟨2⟩ ⟨1⟩ = .ok ctx' ∧ ctx'.isReadOnly ⟨5⟩ = .ok true) ∧
      ∃ ctx' map' copy, ctx.cloneOp ⟨5⟩ .empty = .ok (ctx', map', copy) ∧
        ctx'.isReadOnly copy = .ok true := by
  have hreads : Build.reads "f" storeAfterLoad fun root ctx =>
      decide (ctx.ops.size = 8 ∧ ((ctx.kindOf ⟨3⟩).isRecursive ∧ (ctx.kindOf ⟨5⟩).isRecursive) ∧
        (⟨3⟩ ∈ ctx.childrenOf ⟨5⟩ ∧ ⟨0⟩ ∈ ctx.regionsOf ⟨3⟩ ∧ ⟨2⟩ ∈ ctx.blocksOf ⟨0⟩) ∧
        (ctx.isReadOnly ⟨5⟩).toOption = some true ∧ (ctx.isReadOnly ⟨6⟩).toOption = some false ∧
        (ctx.isAncestor ⟨6⟩ ⟨3⟩).toOption = some false ∧
        ⟨1⟩ ∈ ctx.opsOf ⟨2⟩ ∧ ⟨2⟩ ∈ ctx.opsOf ⟨2⟩) := Build.reads_ofList (by decide +kernel)
  obtain ⟨root, ctx, hread, htest⟩ := Build.exists_of_reads hreads
  obtain ⟨hsize, ⟨hbranch, hparallel⟩, ⟨hchild, hregion, hblock⟩, hreadsOnly, hwrites, hapart,
    hload, hyield⟩ := of_decide_eq_true htest
  obtain ⟨hsound, hroot, -, -⟩ := Build.read_built hread
  have hc := hsound.coherent
  have hop (n : Nat) (hn : n < 8) : ctx.HasOp ⟨n⟩ := by rwa [HasOp, hsize]
  obtain ⟨⟨answer, hanswer, hiff⟩, hput, horder, hclone⟩ :=
    hsound.isReadOnly_spec (hop 5 (by decide))
  obtain rfl := Except.ok.inj ((Outcome.eq_ok_of_toOption hreadsOnly).symm.trans hanswer)
  have hdown : ctx.Consults ⟨5⟩ ⟨3⟩ := Consults.self.child hparallel hchild
  have hout : ¬ctx.Within ⟨3⟩ ⟨6⟩ := by
    rw [← hsound.grounded.isAncestor_iff hc (hop 3 (by decide)),
      Outcome.eq_ok_of_toOption hapart]
    simp
  obtain ⟨hputs, -⟩ := hput ⟨3⟩ ⟨0⟩ ⟨2⟩ ⟨6⟩ hdown hbranch hregion hblock
    (Outcome.eq_ok_of_toOption hwrites) hout
  obtain ⟨ctx₁, hmove₁⟩ := hc.moveOpBefore_ok (hop 6 (by decide)) (by decide) hload
  obtain ⟨ctx₂, hmove₂⟩ := hc.moveOpBefore_ok (hop 2 (by decide)) (by decide) hload
  have hanchor := (hc.ops.owner_iff ⟨1⟩ ⟨2⟩).2 hload
  have hstore := hputs ctx₁ (.move ⟨1⟩ hanchor hmove₁)
  obtain ⟨l, hwithin⟩ := (Puts.move ⟨1⟩ hanchor hmove₂).put hc
  have hordered := hwithin.reordered hc ((hc.ops.owner_iff ⟨2⟩ ⟨2⟩).2 hyield)
  obtain ⟨ctx₃, map', copy, hrun, hcopy, -⟩ := hclone .empty
  exact ⟨root, ctx, hread, hsound, hop 5 (by decide), hanswer, hiff.1 rfl,
    ⟨ctx₁, hmove₁, hstore ⟨3⟩ hdown .self, hstore ⟨5⟩ .self hdown⟩,
    ⟨ctx₂, hmove₂, (horder ctx₂ hordered).trans hanswer⟩,
    ctx₃, map', copy, hrun, hcopy.trans hanswer⟩

end Context

end Offload
