import Offload.Proofs.Parallel.Termination
import Offload.Proofs.Parallel.Lockstep
import Offload.Proofs.Source.Isomorphic
import Offload.Proofs.Source.RoundTrip

/-!
# Modules of functions

A module that lists nothing but functions has no values that one of them could share with
another (`Functions.row`): a function has no operands and no results, and what is defined in it is in
scope there alone. So if the same function stands in two such modules, the one stands alongside the other
(`Functions.alongside`).
-/

namespace Offload

open Context

variable {root : OpRef} {ctx : Context}

/-- A valid module as it was read, of functions only. -/
structure Functions (root : OpRef) (ctx : Context) : Prop where
  stable : ctx.Stable root
  valid : ctx.Valid root
  within : ∀ o, ctx.HasOp o → ctx.Within o root
  founded : ctx.Founded
  fresh : Build.Fresh root ctx
  kind : ctx.kindOf root = .coreModule
  funcs : ∀ t ∈ ctx.childrenOf root, ctx.kindOf t = .func

theorem Around.childrenOf {k : BlockRef} (h : Around (some k) root ctx) :
    ctx.childrenOf root = ctx.opsOf k := by
  obtain ⟨_, r, hhome, hr, hblocks⟩ := h.place
  obtain rfl := Option.some.inj hhome
  simp only [Context.childrenOf, hr, hblocks, List.flatMap_cons, List.flatMap_nil,
    List.append_nil]

namespace Functions

theorem of_read {path text : String} {findings : Findings}
    (hread : Context.empty.read path text = (.ok root, ctx))
    (hfindings : ctx.findings root = .ok findings) (hvalid : findings.isEmpty)
    (hkind : ctx.kindOf root = .coreModule)
    (hfuncs : ∀ t ∈ ctx.childrenOf root, ctx.kindOf t = .func) : Functions root ctx := by
  have hstable := Parallel.stable_of_read hread hfindings hvalid
  exact ⟨hstable, (hstable.sound.findings_isEmpty_iff hstable.hasRoot hstable.live).1
      ⟨findings, hfindings, hvalid⟩, fun o ho => Build.read_within hread ho,
    (Build.read_normal orderly_empty hread).1.founded, Build.read_fresh hread, hkind, hfuncs⟩

theorem exists_around (h : Functions root ctx) : ∃ k, Around (some k) root ctx := by
  have hfits := (h.stable.shaped root (.refl root)).fits _ (by rw [h.kind]; rfl)
  obtain ⟨r, hr, hcount⟩ := eq_singleton_of_forall₂ hfits.regions
  obtain ⟨k, hk⟩ := eq_singleton_of_admits hcount
  exact ⟨k, h.stable.sound, h.stable.hasRoot, h.stable.detached, k, r, rfl, hr, hk⟩

section

variable {k : BlockRef} (h : Functions root ctx) (hk : Around (some k) root ctx)

include h

theorem results (t : OpRef) (ht : t ∈ ctx.childrenOf root) : ctx.results t = [] := by
  have hw := within_of_above (h.stable.sound.coherent.mem_childrenOf.1 ht)
  have hfits := (h.stable.shaped t hw).fits _ (by rw [h.funcs t ht]; rfl)
  exact List.length_eq_zero_iff.1 (hfits.results 0 rfl)

theorem inScope_of_held {v : ValueRef} {o : OpRef} {n : Nat}
    (hheld : (ctx.heldBy o)[n]? = some v) : ctx.InScope o v := by
  have ho : ctx.HasOp o := by
    by_contra hn
    rw [heldBy, readOp_of_not_hasOp hn] at hheld
    cases hheld
  have hw := h.within o ho
  rw [heldBy_eq, if_neg (h.stable.live o hw)] at hheld
  exact h.valid.inScope o hw v (List.mem_of_getElem? hheld)

include hk

/-- What is in scope in a function is defined there, or it is an argument of the module. -/
theorem operand {t o : OpRef} {v : ValueRef} (ht : t ∈ ctx.childrenOf root)
    (ho : ctx.Within o t) (hv : ctx.InScope o v) : ctx.DefinedWithin t v ∨ v ∈ ctx.args k := by
  have hc := h.stable.sound.coherent
  -- the way up from the operation leads to the function, and there is nothing more around it
  induction ho using Relation.ReflTransGen.head_induction_on with
  | refl =>
    rw [hk.childrenOf] at ht
    obtain ⟨before, after, hops⟩ := List.append_of_mem ht
    rcases hc.inScope_cases hops hv with hargs | ⟨p, hp, hresults⟩ | ⟨a, ha, hv⟩
    · exact .inr hargs
    · have hmem : p ∈ ctx.childrenOf root := by
        rw [hk.childrenOf, hops]
        exact List.mem_append_left _ hp
      rw [h.results p hmem] at hresults
      cases hresults
    · obtain rfl := Option.some.inj (hk.holder.symm.trans ha)
      obtain ⟨b, before, after, hb⟩ := hc.exists_split_of_inScope hv
      have hroot := (hc.ops.owner_iff root b).2 (by simp [hb])
      rw [h.stable.detached] at hroot
      cases hroot
  | @head o y hy hyt ih =>
    obtain ⟨b, hb, hholder⟩ := Option.bind_eq_some_iff.1 hy
    obtain ⟨before, after, hops⟩ := List.append_of_mem ((hc.ops.owner_iff o b).1 hb)
    rcases hc.inScope_cases hops hv with hargs | ⟨p, hp, hresults⟩ | ⟨a, ha, hv⟩
    · exact .inl ⟨y, (definer_of_mem_args hc hargs).trans hholder, hyt⟩
    · have hpb : p ∈ ctx.opsOf b := by
        rw [hops]
        exact List.mem_append_left _ hp
      have hpy := within_of_above ((hc.above_of_mem hpb).trans hholder)
      exact .inl ⟨p, definer_of_mem_results hc hresults, hpy.trans hyt⟩
    · obtain rfl := Option.some.inj (hholder.symm.trans ha)
      exact ih hv

theorem secluded {t : OpRef} (ht : t ∈ ctx.childrenOf root) :
    Secluded (· ∈ ctx.args k) ctx t := by
  have hc := h.stable.sound.coherent
  have habove := hc.mem_childrenOf.1 ht
  have hroot (o : OpRef) (ho : ctx.Within o t) : ctx.Within o root :=
    ho.trans (within_of_above habove)
  refine ⟨h.funcs t ht, fun o ho => Bool.eq_false_iff.2 (h.stable.live o (hroot o ho)),
    fun o ho v hv => h.operand hk ht ho (h.valid.inScope o (hroot o ho) v hv),
    fun v hv u hu => ?_, ?_⟩
  · have hscope := h.inScope_of_held ((hc.uses.mem_iff v u).1 hu)
    refine hscope.within_of_definedWithin hc hv ?_
    rw [h.results t ht]
    exact List.not_mem_nil
  · rintro v hv ⟨p, hp, hw⟩
    rw [definer_of_mem_args hc hv] at hp
    obtain rfl := Option.some.inj (hk.holder.symm.trans hp)
    exact h.stable.sound.grounded.not_within_above habove hw

/-- The functions of a module are secluded. -/
theorem row {tops : OpRef → Prop} (htops : ∀ t, tops t → t ∈ ctx.childrenOf root) :
    Row (some k) root (· ∈ ctx.args k) tops ctx := by
  have hc := h.stable.sound.coherent
  refine ⟨h.stable.sound, h.fresh.chained, h.fresh.typed, fun v hv => ?_, fun v hv => ?_,
    fun t ht => ?_, fun t ht => ⟨?_, hk.holder⟩, fun t ht => h.secluded hk (htops t ht)⟩
  · refine List.eq_nil_iff_forall_not_mem.2 fun u hu => ?_
    obtain ⟨w, -, hscope⟩ := h.inScope_of_held ((hc.uses.mem_iff v u).1 hu)
    rw [sourceOf, Array.getElem?_eq_none hv] at hscope
    exact hscope
  · obtain ⟨n, hn⟩ := (mem_args_iff hc).1 hv
    exact index_lt_of_sourceOf hn
  · exact (hc.hasOp_of_above (hc.mem_childrenOf.1 (htops t ht))).1
  · exact (hc.ops.owner_iff t k).2 (hk.childrenOf ▸ htops t ht)

end

/-- The others are the functions but one. -/
def Others (root : OpRef) (ctx : Context) (t u : OpRef) : Prop :=
  u ∈ ctx.childrenOf root ∧ u ≠ t

variable {root' t t' : OpRef} {ctx' : Context} {k k' : BlockRef} {R : Matching ValueRef}

theorem spans (h : Functions root ctx) (ht : t ∈ ctx.childrenOf root) :
    ∃ start, ctx.Spans start (ctx.childrenOf t) t.index := by
  obtain ⟨start, stop, hspans⟩ := h.fresh.spans
  cases hspans with
  | cons inside _ =>
    obtain ⟨before, after, hchildren⟩ := List.append_of_mem ht
    rw [hchildren] at inside
    obtain ⟨middle, -, hrest⟩ := inside.split
    cases hrest with
    | cons inside _ => exact ⟨middle, inside⟩

/-- A function that is spelled the same in two modules looks the same. -/
theorem counterparts (h : Functions root ctx) (h' : Functions root' ctx')
    (hk : Around (some k) root ctx) (hk' : Around (some k') root' ctx')
    (ht : t ∈ ctx.childrenOf root) (ht' : t' ∈ ctx'.childrenOf root')
    (halike : ctx.AlikeOp ctx' R t t') :
    Counterparts (.spelled ctx ctx' t t' R) (some k) (some k') root root' (· ∈ ctx.args k)
      (· ∈ ctx'.args k') ctx ctx' where
  left := h.row hk fun u hu => by
    obtain ⟨_, rfl, -⟩ := hu
    exact ht
  right := h'.row hk' fun u hu => by
    obtain ⟨_, -, rfl⟩ := hu
    exact ht'
  line ho := by
    obtain ⟨_, _, ⟨rfl, rfl⟩, ho⟩ := ho
    exact (ho.alike halike).line rfl (fun _ _ => Context.AlikeType.sameType h.founded h'.founded)
      h.stable.sound.coherent h'.stable.sound.coherent h.fresh.typed h'.fresh.typed
      fun _ _ => sameAttributes_of_alike h.founded h'.founded
  order htop ho hq := by
    obtain ⟨rfl, rfl⟩ := htop
    have hspans := h.spans ht
    have hspans' := h'.spans ht'
    obtain ⟨-, -, ho⟩ := ho.index halike hspans hspans'
    obtain ⟨-, -, hq⟩ := hq.index halike hspans hspans'
    omega

/-- A function and the others are all that the module lists. -/
theorem sifted {p q : Pairing} (h : Functions root ctx) (hk : Around (some k) root ctx)
    (ht : t ∈ ctx.childrenOf root) (hp : p.op t t') (hq : ∀ u, Others root ctx t u → q.op.Left u) :
    Sifted p q (ctx.childrenOf root) [t'] := by
  have hnodup := h.stable.sound.coherent.ops.nodup k
  rw [← hk.childrenOf] at hnodup
  obtain ⟨before, after, hchildren⟩ := List.append_of_mem ht
  rw [hchildren, List.nodup_append, List.nodup_cons] at hnodup
  obtain ⟨-, ⟨hafter, -⟩, hbefore⟩ := hnodup
  rw [hchildren]
  refine @Sifted.append p q before [] (t :: after) [t'] (.of_forall fun u hu => hq u ⟨?_, ?_⟩)
    (.cons hp (.of_forall fun u hu => hq u ⟨?_, ?_⟩))
  · simp [hchildren, hu]
  · exact hbefore u hu t List.mem_cons_self
  · simp [hchildren, hu]
  · rintro rfl
    exact hafter hu

/-- A function stands in its module alongside where it stands alone. -/
theorem alongside (h : Functions root ctx) (h' : Functions root' ctx')
    (hk : Around (some k) root ctx) (hk' : Around (some k') root' ctx')
    (ht : t ∈ ctx.childrenOf root) (hsingle : ctx'.childrenOf root' = [t'])
    (halike : ctx.AlikeOp ctx' R t t') : ∃ p q, p.op t t' ∧
      Alongside ((Likeness.spelled ctx ctx' t t' R).border (some k) (some k') (· ∈ ctx.args k)
        (· ∈ ctx'.args k')) (Likeness.diagonal (Others root ctx t)).top.Left root root' p q
        ctx ctx' := by
  have hmine := h.counterparts h' hk hk' ht (by simp [hsingle]) halike
  have hothers : Row (some k) root (· ∈ ctx.args k) (Others root ctx t) ctx :=
    h.row hk fun _ hu => hu.1
  have hall : Row (some k) root (· ∈ ctx.args k) (· ∈ ctx.childrenOf root) ctx :=
    h.row hk fun _ => id
  have hall' : Row (some k') root' (· ∈ ctx'.args k') (· ∈ ctx'.childrenOf root') ctx' :=
    h'.row hk' fun _ => id
  have hrest := Counterparts.diagonal hothers
  have hmem (u : OpRef) (hu : (Matching.single t t').Left u) : u ∈ ctx.childrenOf root :=
    Matching.left_single.1 hu ▸ ht
  have hmem' (u : OpRef) (hu : (Matching.single t t').Right u) : u ∈ ctx'.childrenOf root' :=
    Matching.right_single.1 hu ▸ by simp [hsingle]
  have hleft (u : OpRef) (hu : (Matching.diagonal (Others root ctx t)).Left u) :
      u ∈ ctx.childrenOf root := (Matching.left_diagonal.1 hu).1
  have hright (u : OpRef) (hu : (Matching.diagonal (Others root ctx t)).Right u) :
      u ∈ ctx.childrenOf root := (Matching.right_diagonal.1 hu).1
  have hne (u : OpRef) (hu : (Matching.single t t').Left u) :
      ¬(Matching.diagonal (Others root ctx t)).Left u := fun hother =>
    (Matching.left_diagonal.1 hother).2 (Matching.left_single.1 hu)
  have hne' (u : OpRef) (hu : (Matching.single t t').Left u) :
      ¬(Matching.diagonal (Others root ctx t)).Right u := fun hother =>
    (Matching.right_diagonal.1 hother).2 (Matching.left_single.1 hu)
  refine ⟨hmine.pairing, hrest.pairing, ⟨t, t', ⟨rfl, rfl⟩, .top⟩, ?_⟩
  exact
    { mine := hmine.toMatch
      footing := ⟨hk, hk', hall.root_outside hmem hmine.inside_left,
        hall'.root_outside hmem' hmine.inside_right⟩
      rest := hrest.toMatch
      restFooting := ⟨hk, hk, hall.root_outside hleft hrest.inside_left,
        hall.root_outside hright hrest.inside_right⟩
      same := by
        rintro o o' ⟨u, _, ⟨rfl, -⟩, ho⟩
        exact ho.eq
      apart := hall.apart hmem hleft hne hmine.inside_left hrest.inside_left
      apart' := hall.apart hmem hright hne' hmine.inside_left hrest.inside_right
      tops := hsingle ▸ h.sifted hk ht ⟨t, t', ⟨rfl, rfl⟩, .top⟩ fun u hu =>
        ⟨u, u, u, ⟨rfl, hu⟩, .top⟩
      stable := h.stable
      stable' := h'.stable }

end Functions

end Offload
