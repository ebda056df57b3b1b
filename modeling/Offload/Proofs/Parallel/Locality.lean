import Offload.Proofs.Parallel.Functions
import Offload.Proofs.Source.InStep

/-!
# Functions are optimized one by one

The parallel patterns work through all functions of a module together: there is one queue and
one count of passes, and passes are made until one changes nothing anywhere. Still, what becomes
of a function does not depend on the others (`run_local`): it is printed as if it had been alone
in its module.
-/

namespace Offload

open Context

section

variable {ctx ctx' ctx₁ ctx₁' : Context}

theorem Context.Evolves.remembers (h : ctx.Evolves ctx₁) : ctx.Remembers ctx₁ where
  type t node ht := by rwa [type_eq_ok, h.types, ← type_eq_ok]
  path p text hp := by rwa [path_eq_ok, h.paths, ← path_eq_ok]

theorem Context.Evolves.quote_type (h : ctx.Evolves ctx₁) {t : TypeRef} {term : TypeTerm}
    (ht : Quote.type ctx t = .ok term) : Quote.type ctx₁ t = .ok term :=
  Quote.typeWithin_mono h.remembers (by rw [h.types]) ht

variable (h : ctx.Evolves ctx₁) (h' : ctx'.Evolves ctx₁')

include h h'

theorem SameType.evolves {t t' : TypeRef} (ht : SameType ctx ctx' t t') :
    SameType ctx₁ ctx₁' t t' := by
  obtain ⟨term, ht, ht'⟩ := ht
  exact ⟨term, h.quote_type ht, h'.quote_type ht'⟩

theorem SameAttributes.evolves {as as' : Attributes} (has : SameAttributes ctx ctx' as as') :
    SameAttributes ctx₁ ctx₁' as as' := by
  obtain ⟨es, has, has'⟩ := has
  exact ⟨es, Quote.entries_mono h.remembers (fun _ _ => h.quote_type) has,
    Quote.entries_mono h'.remembers (fun _ _ => h'.quote_type) has'⟩

/-- What was spelled the same still is, since no type is new. -/
theorem Likeness.spelled_evolves (top top' : OpRef) (R : Matching ValueRef)
    (home home' : Option BlockRef) (free free' : ValueRef → Prop) :
    ((Likeness.spelled ctx ctx' top top' R).border home home' free free').Spelled ctx₁ ctx₁' where
  type _ _ := SameType.evolves h h'
  attributes _ _ := SameAttributes.evolves h h'

end

namespace Alongside

variable {b : Border} {others : OpRef → Prop} {root root' t t' : OpRef} {p q : Pairing}
  {ctx ctx' : Context} (h : Alongside b others root root' p q ctx ctx')

include h

/-- A top has no results, so they are paired. -/
theorem results_top (ht : b.top t) (hp : p.op t t') :
    List.Forall₂ p.value (ctx.results t) (ctx'.results t') := by
  obtain ⟨row, row', hrow, hrow', hsame⟩ := h.mine.op hp
  have hnil : row.results = [] := by
    have hw := within_of_above (h.footing.above_top h.mine ht hp).1
    have hfits := (h.stable.shaped t hw).fits _ (by rw [h.mine.kindOf_top ht]; rfl)
    have hresults := List.length_eq_zero_iff.1 (hfits.results 0 rfl)
    rwa [results_eq_readOp, readOp_of_op hrow] at hresults
  have hnil' : row'.results = [] := by
    rw [← List.length_eq_zero_iff, ← hsame.results.length_eq, hnil, List.length_nil]
  rw [results_eq_readOp, results_eq_readOp, readOp_of_op hrow, readOp_of_op hrow', hnil, hnil']
  exact .nil

/-- A function among others is printed as if it is alone. -/
theorem print_top (hs : b.Spelled ctx ctx') (ht : b.top t) (hp : p.op t t') :
    ∃ text, ctx.print t = .ok text ∧ ctx'.print t' = .ok text :=
  h.mine.print_eq hs h.stable.sound h.stable'.sound hp (h.results_top ht hp)

end Alongside

namespace Parallel

variable {root root' t t' : OpRef} {ctx ctx' : Context} {path path' text text' : String}
  {findings findings' : Findings}

/-- What becomes of a function when its module is optimized does not depend on the other
    functions of the module: with the same cap on the number of passes, it becomes the same as
    the same function does alone. Both optimizations come to an end if their budgets are
    sufficient. -/
theorem run_local (hread : Context.empty.read path text = (.ok root, ctx))
    (hfindings : ctx.findings root = .ok findings) (hvalid : findings.isEmpty)
    (hkind : ctx.kindOf root = .coreModule)
    (hfuncs : ∀ u ∈ ctx.childrenOf root, ctx.kindOf u = .func) (ht : t ∈ ctx.childrenOf root)
    (hread' : Context.empty.read path' text' = (.ok root', ctx'))
    (hfindings' : ctx'.findings root' = .ok findings') (hvalid' : findings'.isEmpty)
    (hkind' : ctx'.kindOf root' = .coreModule) (hsingle : ctx'.childrenOf root' = [t'])
    (halike : ctx.Isomorphic ctx' t t') (maxPasses : Nat) :
    (∃ budget, ∀ b, budget ≤ b → ∃ ctx₁ result ctx₁' result',
      { patterns, maxPasses, budget := b : Greedy }.run ctx root = .ok (ctx₁, result) ∧
        { patterns, maxPasses, budget := b : Greedy }.run ctx' root' = .ok (ctx₁', result')) ∧
      ∀ b b' ctx₁ result ctx₁' result',
        { patterns, maxPasses, budget := b : Greedy }.run ctx root = .ok (ctx₁, result) →
        { patterns, maxPasses, budget := b' : Greedy }.run ctx' root' = .ok (ctx₁', result') →
        ∃ printed, ctx₁.print t = .ok printed ∧ ctx₁'.print t' = .ok printed := by
  refine ⟨?_, fun b b' ctx₁ result ctx₁' result' hrun hrun' => ?_⟩
  · obtain ⟨budget, _, hends⟩ := run_ends (tight_of_read hread hfindings hvalid)
    obtain ⟨budget', _, hends'⟩ := run_ends (tight_of_read hread' hfindings' hvalid')
    obtain ⟨ctx₁, result, hrun, -⟩ := hends maxPasses
    obtain ⟨ctx₁', result', hrun', -⟩ := hends' maxPasses
    exact ⟨max budget budget', fun b hb => ⟨ctx₁, result, ctx₁', result',
      hrun b (le_of_max_le_left hb), hrun' b (le_of_max_le_right hb)⟩⟩
  · obtain ⟨R, hR, halike⟩ := halike
    have h := Functions.of_read hread hfindings hvalid hkind hfuncs
    have hfunc' : ctx'.kindOf t' = .func := by
      obtain ⟨hrow, hrow', hkinds, -, -, -, -, -⟩ := halike
      rw [← hfuncs t ht, kindOf, kindOf, readOp_of_op hrow, readOp_of_op hrow', hkinds]
    have h' := Functions.of_read hread' hfindings' hvalid' hkind' fun u hu => by
      rw [hsingle, List.mem_singleton] at hu
      exact hu ▸ hfunc'
    obtain ⟨k, hk⟩ := h.exists_around
    obtain ⟨k', hk'⟩ := h'.exists_around
    let m : Matching ValueRef := ⟨R, fun hv hw => hR _ _ _ _ hv hw⟩
    obtain ⟨p, q, hp, halongside⟩ := h.alongside h' hk hk' ht hsingle (R := m) halike
    have hempty : SameAttributes ctx ctx' .empty .empty := ⟨[], rfl, rfl⟩
    obtain ⟨p₁, q₁, hle, h₁⟩ := halongside.run rfl rfl hempty (by rfl) hrun hrun'
    have hev := (steps_of_reaches rfl h.stable (Greedy.run_reaches hrun)).evolves
    have hev' := (steps_of_reaches rfl h'.stable (Greedy.run_reaches hrun')).evolves
    exact h₁.print_top (Likeness.spelled_evolves hev hev' t t' m _ _ _ _)
      (Matching.left_single.2 rfl) (hle.op hp)

/-! ### Two regions, beside a conditional and alone -/

/-- An operation without operands and results. -/
def Blank (ctx : Context) (kind : OpKind) (as : List (String × Attribute)) (rs : List RegionRef)
    (o : OpRef) : Prop :=
  ctx.HasOp o ∧ ctx.kindOf o = kind ∧ (ctx.attributesOf o).entries = as ∧ ctx.operandsOf o = [] ∧
    ctx.resultTypesOf o = [] ∧ ctx.results o = [] ∧ ctx.regionsOf o = rs

/-- A region of one block, which has no arguments. -/
def Plain (ctx : Context) (k : BlockRef) (os : List OpRef) (r : RegionRef) : Prop :=
  ctx.HasRegion r ∧ ctx.HasBlock k ∧ ctx.blocksOf r = [k] ∧ ctx.args k = [] ∧ ctx.opsOf k = os

instance decidableBlank (ctx : Context) (kind : OpKind) (as : List (String × Attribute))
    (rs : List RegionRef) (o : OpRef) : Decidable (Blank ctx kind as rs o) :=
  inferInstanceAs (Decidable (_ ∧ _))

instance decidablePlain (ctx : Context) (k : BlockRef) (os : List OpRef) (r : RegionRef) :
    Decidable (Plain ctx k os r) := inferInstanceAs (Decidable (_ ∧ _))

section

variable {R : ValueRef → ValueRef → Prop} {o o' : OpRef} {r r' : RegionRef} {k k' : BlockRef}

theorem Plain.alike {os os' : List OpRef} (h : Plain ctx k os r) (h' : Plain ctx' k' os' r')
    (hos : List.Forall₂ (ctx.AlikeOp ctx' R) os os') : ctx.AlikeRegion ctx' R r r' := by
  obtain ⟨hr, hk, hblocks, hargs, rfl⟩ := h
  obtain ⟨hr', hk', hblocks', hargs', rfl⟩ := h'
  obtain ⟨row, hrow⟩ := hasRegion_iff.1 hr
  obtain ⟨row', hrow'⟩ := hasRegion_iff.1 hr'
  obtain ⟨block, hblock⟩ := hasBlock_iff.1 hk
  obtain ⟨block', hblock'⟩ := hasBlock_iff.1 hk'
  rw [blocksOf, readRegion_of_region hrow] at hblocks
  rw [blocksOf, readRegion_of_region hrow'] at hblocks'
  rw [args_eq_readBlock, readBlock_of_block hblock] at hargs
  rw [args_eq_readBlock, readBlock_of_block hblock'] at hargs'
  rw [opsOf, opsOf, readBlock_of_block hblock, readBlock_of_block hblock'] at hos
  refine .mk hrow hrow' ?_
  rw [hblocks, hblocks']
  refine .cons (.mk hblock hblock' ?_ hos) .nil
  rw [hargs, hargs']
  exact .nil

theorem Blank.alike {kind : OpKind} {as as' : List (String × Attribute)} {rs rs' : List RegionRef}
    (h : Blank ctx kind as rs o) (h' : Blank ctx' kind as' rs' o')
    (has : List.Forall₂ (ctx.AlikeEntry ctx') as as')
    (hrs : List.Forall₂ (ctx.AlikeRegion ctx' R) rs rs') : ctx.AlikeOp ctx' R o o' := by
  obtain ⟨ho, hkind, rfl, hoperands, htypes, hresults, rfl⟩ := h
  obtain ⟨ho', hkind', rfl, hoperands', htypes', hresults', rfl⟩ := h'
  obtain ⟨row, hrow⟩ := hasOp_iff.1 ho
  obtain ⟨row', hrow'⟩ := hasOp_iff.1 ho'
  simp only [kindOf, attributesOf, operandsOf, resultTypesOf, results_eq_readOp, regionsOf,
    readOp_of_op hrow, readOp_of_op hrow'] at *
  refine .mk hrow hrow' (hkind.trans hkind'.symm) has ?_ ?_ ?_ hrs
  · rw [hoperands, hoperands']
    exact .nil
  · rw [htypes, htypes']
    exact .nil
  · rw [hresults, hresults']
    exact .nil

end

/-- A module of the given functions. -/
def moduleOf (funcs : List String) : String := "core.module \x7b" ++ String.join funcs ++ "\x7d"

theorem moduleOf_ofList (css : List (List Char)) : moduleOf (css.map String.ofList) =
    String.ofList ("core.module \x7b".toList ++ css.flatten ++ "\x7d".toList) := by
  have hjoin : String.join (css.map String.ofList) = String.ofList css.flatten := by
    refine String.toList_injective ?_
    simp only [String.toList_join, List.flatMap_map, String.toList_ofList, List.flatMap_id']
  rw [moduleOf, hjoin, String.ofList_append, String.ofList_append, String.ofList_toList,
    String.ofList_toList]

/-- A region in a conditional, and one after it. -/
def regionInBranch : String :=
  "func.func @g \x7btype = func.fn(core.nil, core.i1)\x7d \x7b
^bb0(%c: core.i1):
scf.if %c \x7b
omp.parallel \x7b omp.terminator \x7d
scf.yield
\x7d \x7b \x7d
omp.parallel \x7b omp.terminator \x7d
func.return \x7d
"

/-- Two regions, one after the other. -/
def twoRegions : String :=
  "func.func @f \x7btype = func.fn(core.nil)\x7d \x7b
omp.parallel \x7b omp.terminator \x7d
omp.parallel \x7b omp.terminator \x7d
func.return \x7d
"

/-- The function of two regions is in a context, from the given numbers on. -/
def TwoRegions (ctx : Context) (op region block : Nat) (nil fn : TypeRef) : Prop :=
  ctx.type nil = .ok ⟨"core", "nil", [], .empty⟩ ∧ ctx.type fn = .ok ⟨"func", "fn", [nil], .empty⟩ ∧
  Blank ctx .terminator [] [] ⟨op⟩ ∧ Plain ctx ⟨block + 1⟩ [⟨op⟩] ⟨region⟩ ∧
  Blank ctx .parallel [] [⟨region⟩] ⟨op + 1⟩ ∧
  Blank ctx .terminator [] [] ⟨op + 2⟩ ∧ Plain ctx ⟨block + 2⟩ [⟨op + 2⟩] ⟨region + 1⟩ ∧
  Blank ctx .parallel [] [⟨region + 1⟩] ⟨op + 3⟩ ∧ Blank ctx .funcReturn [] [] ⟨op + 4⟩ ∧
  Plain ctx ⟨block⟩ [⟨op + 1⟩, ⟨op + 3⟩, ⟨op + 4⟩] ⟨region + 2⟩ ∧
  Blank ctx .func [("sym_name", .atom (.symbol "f")), ("type", .atom (.type fn))] [⟨region + 2⟩]
    ⟨op + 5⟩

instance decidableTwoRegions (ctx : Context) (op region block : Nat) (nil fn : TypeRef) :
    Decidable (TwoRegions ctx op region block nil fn) := inferInstanceAs (Decidable (_ ∧ _))

theorem TwoRegions.isomorphic {op region block op' region' block' : Nat} {nil fn nil' fn' : TypeRef}
    (h : TwoRegions ctx op region block nil fn)
    (h' : TwoRegions ctx' op' region' block' nil' fn') :
    ctx.Isomorphic ctx' ⟨op + 5⟩ ⟨op' + 5⟩ := by
  obtain ⟨hnil, hfn, hend₁, hin₁, hfirst, hend₂, hin₂, hsecond, hreturn, hbody, hfunc⟩ := h
  obtain ⟨hnil', hfn', hend₁', hin₁', hfirst', hend₂', hin₂', hsecond', hreturn', hbody', hfunc'⟩ := h'
  have htype : ctx.AlikeType ctx' fn fn' :=
    .mk hfn hfn' rfl rfl (.cons (.mk hnil hnil' rfl rfl .nil .nil) .nil) .nil
  have hentries : List.Forall₂ (ctx.AlikeEntry ctx')
      [("sym_name", .atom (.symbol "f")), ("type", .atom (.type fn))]
      [("sym_name", .atom (.symbol "f")), ("type", .atom (.type fn'))] :=
    .cons (.mk (.plain nofun nofun)) (.cons (.mk (.type htype)) .nil)
  refine ⟨fun _ _ => False, nofun, hfunc.alike hfunc' hentries (.cons (hbody.alike hbody' ?_) .nil)⟩
  have hends₁ := hin₁.alike (R := fun _ _ => False) hin₁' (.cons (hend₁.alike hend₁' .nil .nil) .nil)
  have hends₂ := hin₂.alike (R := fun _ _ => False) hin₂' (.cons (hend₂.alike hend₂' .nil .nil) .nil)
  exact .cons (hfirst.alike hfirst' .nil (.cons hends₁ .nil))
    (.cons (hsecond.alike hsecond' .nil (.cons hends₂ .nil))
      (.cons (hreturn.alike hreturn' .nil .nil) .nil))

set_option maxRecDepth 100000 in
/-- The two regions are fused, whether or not it takes more than that to optimize the module. -/
theorem run_local_twoRegions : ∃ root ctx root' ctx' ctx₁ result ctx₁' result',
    Context.empty.read "f" (moduleOf [regionInBranch, twoRegions]) = (.ok root, ctx) ∧
      Context.empty.read "g" (moduleOf [twoRegions]) = (.ok root', ctx') ∧
      { patterns, maxPasses := 47 : Greedy }.run ctx root = .ok (ctx₁, result) ∧
      { patterns, maxPasses := 47 : Greedy }.run ctx' root' = .ok (ctx₁', result') ∧
      result.changes = 3 ∧ result'.changes = 1 ∧ ctx.Isomorphic ctx' ⟨13⟩ ⟨5⟩ ∧
      ∃ printed, ctx₁.print ⟨13⟩ = .ok printed ∧ ctx₁'.print ⟨5⟩ = .ok printed := by
  have hends : endsWith "f" (moduleOf [regionInBranch, twoRegions]) 47
      (fun root ctx _ result => decide (result.changes = 3 ∧ ctx.kindOf root = .coreModule ∧
        (∀ u ∈ ctx.childrenOf root, ctx.kindOf u = .func) ∧ ⟨13⟩ ∈ ctx.childrenOf root ∧
        TwoRegions ctx 8 5 5 ⟨0⟩ ⟨3⟩)) := by
    rw [show moduleOf [regionInBranch, twoRegions] = _ from moduleOf_ofList [_, _]]
    exact endsWith_ofList (by decide +kernel)
  have hends' : endsWith "g" (moduleOf [twoRegions]) 47
      (fun root ctx _ result => decide (result.changes = 1 ∧ ctx.kindOf root = .coreModule ∧
        ctx.childrenOf root = [⟨5⟩] ∧ TwoRegions ctx 0 0 1 ⟨0⟩ ⟨1⟩)) := by
    rw [show moduleOf [twoRegions] = _ from moduleOf_ofList [_]]
    exact endsWith_ofList (by decide +kernel)
  obtain ⟨root, ctx, findings, ctx₁, result, hread, hfindings, hvalid, hrun, htest⟩ :=
    exists_of_endsWith hends
  obtain ⟨root', ctx', findings', ctx₁', result', hread', hfindings', hvalid', hrun', htest'⟩ :=
    exists_of_endsWith hends'
  obtain ⟨hchanges, hkind, hfuncs, hmem, htwo⟩ := of_decide_eq_true htest
  obtain ⟨hchanges', hkind', hsingle, htwo'⟩ := of_decide_eq_true htest'
  have hiso := htwo.isomorphic htwo'
  obtain ⟨-, hsame⟩ := run_local hread hfindings hvalid hkind hfuncs hmem hread' hfindings' hvalid'
    hkind' hsingle hiso 47
  exact ⟨root, ctx, root', ctx', ctx₁, result, ctx₁', result', hread, hread', hrun, hrun', hchanges,
    hchanges', hiso, hsame _ _ _ _ _ _ hrun hrun'⟩

end Parallel

end Offload
