import Offload.Proofs.Source.Alike
import Offload.Proofs.Source.Counterpart

/-!
# Isomorphic operations look the same

Operations that are isomorphic in two contexts are spelled the same: types and attributes that
are alike have the same terms (`Quote.type_of_alike`, `Quote.entries_of_alike`), so whatever is at
the same place looks the same (`AlikeOp.line`). If both were built from terms, then they were
built in the same order (`Twin.index_lt_iff`).
-/

namespace Offload

open Context

/-! ## Types and attributes -/

namespace Quote

variable {ctx ctx' : Context} {f f' : TypeRef → Except Fault TypeTerm}

mutual

/-- What is like something else can be spelled out, if types can be. -/
theorem value_ok (hf : ∀ t node, ctx.type t = .ok node → ∃ term, f t = .ok term) :
    ∀ a a' : Attribute, ctx.AlikeAttribute ctx' a a' → ∃ term, value ctx f a = .ok term
  | .atom x, _, h => by
    cases h with
    | plain htype hlocation =>
      cases x with
      | type t => exact absurd rfl (htype t)
      | location l => exact absurd rfl (hlocation l)
      | _ => exact ⟨_, rfl⟩
    | type ht =>
      obtain ⟨hnode, -, -, -, -, -⟩ := ht
      obtain ⟨term, hterm⟩ := hf _ _ hnode
      exact ⟨.type term, by rw [value, hterm]; rfl⟩
    | location hp hp' => exact ⟨_, by rw [value, hp]; rfl⟩
  | .list as, _, h => by
    cases h with
    | list has =>
      obtain ⟨terms, hterms⟩ := values_ok hf as _ has
      exact ⟨.list terms, by rw [value, hterms]; rfl⟩

theorem values_ok (hf : ∀ t node, ctx.type t = .ok node → ∃ term, f t = .ok term) :
    ∀ as as' : List Attribute, List.Forall₂ (ctx.AlikeAttribute ctx') as as' →
      ∃ terms, values ctx f as = .ok terms
  | [], _, _ => ⟨[], rfl⟩
  | a :: as, _, h => by
    cases h with
    | cons ha has =>
      obtain ⟨term, hterm⟩ := value_ok hf a _ ha
      obtain ⟨terms, hterms⟩ := values_ok hf as _ has
      exact ⟨term :: terms, by rw [values, hterm, Outcome.ok_bind, hterms]; rfl⟩

end

/-- Types that are alike are spelled the same. -/
def Spells (ctx ctx' : Context) (f f' : TypeRef → Except Fault TypeTerm) : Prop :=
  ∀ t t' term, ctx.AlikeType ctx' t t' → f t = .ok term → f' t' = .ok term

mutual

theorem value_of_alike (hf : Spells ctx ctx' f f') : ∀ (a a' : Attribute) (term : AttributeTerm),
    ctx.AlikeAttribute ctx' a a' → value ctx f a = .ok term → value ctx' f' a' = .ok term
  | .atom x, _, term, h, ha => by
    cases h with
    | plain htype hlocation =>
      cases x with
      | type t => exact absurd rfl (htype t)
      | location l => exact absurd rfl (hlocation l)
      | _ => exact ha
    | type ht =>
      rw [value] at ha ⊢
      obtain ⟨tt, htt, ha⟩ := Outcome.bind_eq_ok.1 ha
      rwa [hf _ _ _ ht htt]
    | location hp hp' =>
      rw [value, hp] at ha
      rwa [value, hp']
  | .list as, _, term, h, ha => by
    cases h with
    | list has =>
      rw [value] at ha ⊢
      obtain ⟨terms, hterms, ha⟩ := Outcome.bind_eq_ok.1 ha
      rwa [values_of_alike hf as _ terms has hterms]

theorem values_of_alike (hf : Spells ctx ctx' f f') : ∀ (as as' : List Attribute)
    (terms : List AttributeTerm), List.Forall₂ (ctx.AlikeAttribute ctx') as as' →
      values ctx f as = .ok terms → values ctx' f' as' = .ok terms
  | [], _, terms, h, has => by
    cases h
    exact has
  | a :: as, _, terms, h, has => by
    cases h with
    | cons ha hrest =>
      rw [values] at has ⊢
      obtain ⟨term, hterm, has⟩ := Outcome.bind_eq_ok.1 has
      obtain ⟨rest, hterms, has⟩ := Outcome.bind_eq_ok.1 has
      rw [value_of_alike hf a _ term ha hterm, Outcome.ok_bind,
        values_of_alike hf as _ rest hrest hterms]
      exact has

end

theorem entries_transport (hf : Spells ctx ctx' f f') {as as' : List (String × Attribute)}
    {es : List Entry} (h : List.Forall₂ (ctx.AlikeEntry ctx') as as')
    (has : entries ctx f as = .ok es) : entries ctx' f' as' = .ok es := by
  rw [entries, Outcome.mapM_eq_ok] at has ⊢
  induction h generalizing es with
  | nil =>
    cases has
    exact .nil
  | cons ha _ ih =>
    cases has with
    | cons he hrest =>
      obtain ⟨ha⟩ := ha
      obtain ⟨term, hterm, he⟩ := Outcome.bind_eq_ok.1 he
      refine .cons ?_ (ih hrest)
      dsimp only
      rw [value_of_alike hf _ _ term ha hterm]
      exact he

theorem spells_typeWithin (n : Nat) : Spells ctx ctx' (typeWithin ctx n) (typeWithin ctx' n) := by
  induction n with
  | zero =>
    intro t t' term _ ht
    cases ht
  | succ n ih =>
    rintro t t' term ⟨hnode, hnode', hdialect, hname, hparams, hattributes⟩ ht
    rw [typeWithin_succ, hnode, Outcome.ok_bind] at ht
    obtain ⟨params, hps, ht⟩ := Outcome.bind_eq_ok.1 ht
    obtain ⟨es, hes, ht⟩ := Outcome.bind_eq_ok.1 ht
    have hps' := Outcome.mapM_eq_ok.2 (Position.forall₂_of_common (t := fun t' term =>
      typeWithin ctx' n t' = .ok term) hparams (Outcome.mapM_eq_ok.1 hps)
        fun t t' term h hterm => ih t t' term h hterm)
    rw [typeWithin_succ, hnode', Outcome.ok_bind, hps', Outcome.ok_bind,
      entries_transport ih hattributes hes, ← hdialect, ← hname]
    exact ht

theorem type_ok (hctx : ctx.Founded) {t : TypeRef} {node : TypeNode}
    (ht : ctx.type t = .ok node) : ∃ term, type ctx t = .ok term := by
  have hlt := (Array.getElem?_eq_some_iff.1 (type_eq_ok.1 ht)).1
  obtain ⟨term, hterm⟩ := hctx t.index hlt
  exact ⟨term, typeWithin_mono (.refl ctx) (Nat.succ_le_succ hlt.le) hterm⟩

theorem spells_type (hctx' : ctx'.Founded) : Spells ctx ctx' (type ctx) (type ctx') := by
  intro t t' term h ht
  have h' := spells_typeWithin _ t t' term h ht
  obtain ⟨-, hnode', -, -, -, -⟩ := h
  obtain ⟨term', hterm'⟩ := type_ok hctx' hnode'
  -- both are the term that is found with as many steps as either takes
  have hle := typeWithin_mono (.refl ctx') (Nat.le_max_left _ (ctx'.types.size + 1)) h'
  have hle' := typeWithin_mono (.refl ctx') (Nat.le_max_right (ctx.types.size + 1) _) hterm'
  rwa [← Except.ok.inj (hle'.symm.trans hle)]

end Quote

/-- Types that are spelled the same. -/
def SameType (ctx ctx' : Context) (t t' : TypeRef) : Prop :=
  ∃ term, Quote.type ctx t = .ok term ∧ Quote.type ctx' t' = .ok term

/-- Attributes that are spelled the same. -/
def SameAttributes (ctx ctx' : Context) (as as' : Attributes) : Prop :=
  ∃ es, Quote.entries ctx (Quote.type ctx) as.entries = .ok es ∧
    Quote.entries ctx' (Quote.type ctx') as'.entries = .ok es

/-- Two trees are compared by how they are spelled. -/
def Likeness.spelled (ctx ctx' : Context) (top top' : OpRef) (R : Matching ValueRef) :
    Likeness where
  top := .single top top'
  value := R
  type := SameType ctx ctx'
  attributes := SameAttributes ctx ctx'

section

variable {ctx ctx' : Context} (hctx : ctx.Founded) (hctx' : ctx'.Founded)

include hctx hctx'

theorem Context.AlikeType.sameType {t t' : TypeRef} (h : ctx.AlikeType ctx' t t') :
    SameType ctx ctx' t t' := by
  have h₀ := h
  obtain ⟨hnode, -, -, -, -, -⟩ := h
  obtain ⟨term, hterm⟩ := Quote.type_ok hctx hnode
  exact ⟨term, hterm, Quote.spells_type hctx' t t' term h₀ hterm⟩

theorem sameAttributes_of_alike {as as' : Attributes}
    (h : List.Forall₂ (ctx.AlikeEntry ctx') as.entries as'.entries) :
    SameAttributes ctx ctx' as as' := by
  have hquotable (e : String × Attribute) (he : e ∈ as.entries) :
      ∃ term, Quote.value ctx (Quote.type ctx) e.2 >>= (pure ∘ Entry.mk e.1) = .ok term := by
    obtain ⟨e', -, he⟩ := Outcome.exists_of_mem_left h he
    obtain ⟨ha⟩ := he
    obtain ⟨term, hterm⟩ := Quote.value_ok (fun t node => Quote.type_ok hctx) _ _ ha
    exact ⟨_, by rw [hterm]; rfl⟩
  obtain ⟨es, hes⟩ := Position.exists_forall₂ hquotable
  have hes := Outcome.mapM_eq_ok.2 hes
  exact ⟨es, hes, Quote.entries_transport (Quote.spells_type hctx') h hes⟩

end

/-! ## At the same place -/

section

variable {ctx ctx' : Context} {R : ValueRef → ValueRef → Prop} {top top' o o' : OpRef}

/-- What is at the same place of operations that are alike is alike. -/
theorem Twin.alike (h : Twin ctx ctx' top top' o o') (htop : ctx.AlikeOp ctx' R top top') :
    ctx.AlikeOp ctx' R o o' := by
  induction h with
  | top => exact htop
  | inside _ hr hb ho ih =>
    obtain ⟨hrow, hrow', -, -, -, -, -, hregions⟩ := ih
    rw [regionsOf, regionsOf, readOp_of_op hrow, readOp_of_op hrow'] at hr
    obtain ⟨hrow, hrow', hblocks⟩ := hr.rel hregions
    rw [blocksOf, blocksOf, readRegion_of_region hrow, readRegion_of_region hrow'] at hb
    obtain ⟨hrow, hrow', -, hops⟩ := hb.rel hblocks
    rw [opsOf, opsOf, readBlock_of_block hrow, readBlock_of_block hrow'] at ho
    exact ho.rel hops

/-- The type of an argument is where its block is defined, too. -/
theorem Context.Typed.argTypesOf {ctx : Context} (h : ctx.Typed) (hc : ctx.Coherent) {b : BlockRef}
    {v : ValueRef} {row : Value} {n : Nat} (hv : (ctx.args b)[n]? = some v)
    (hrow : ctx.value v = .ok row) : (ctx.argTypesOf b)[n]? = some row.type := by
  refine h.argument v row b n hrow ?_
  have hsource := (hc.values.argument_iff b n v).1 hv
  rw [sourceOf, value_eq_ok.1 hrow] at hsource
  exact Option.some.inj hsource

variable {s : Likeness} (hR : s.value.rel = R)
  (htype : ∀ t t', ctx.AlikeType ctx' t t' → s.type t t')
  (hc : ctx.Coherent) (hc' : ctx'.Coherent) (htyped : ctx.Typed) (htyped' : ctx'.Typed)

include hR htype hc hc' htyped htyped'

/-- Blocks that are alike have the same label. -/
theorem Context.AlikeBlock.label {b b' : BlockRef} (h : ctx.AlikeBlock ctx' R b b') :
    s.Label ctx ctx' b b' := by
  obtain @⟨_, _, row, row', hrow, hrow', hargs, hops⟩ := h
  have hb : ctx.args b = row.args := by rw [args_eq_readBlock, readBlock_of_block hrow]
  have hb' : ctx'.args b' = row'.args := by rw [args_eq_readBlock, readBlock_of_block hrow']
  rw [← hb, ← hb'] at hargs
  refine ⟨List.forall₂_iff_get.2 ⟨?_, fun n hn hn' => ?_⟩, ?_, ?_⟩
  · rw [← hc.values.args_length, ← hc'.values.args_length, hargs.length_eq]
  · rw [← hc.values.args_length] at hn
    rw [← hc'.values.args_length] at hn'
    obtain ⟨-, row, row', hvalue, hvalue', halike⟩ := List.Forall₂.get hargs hn hn'
    have ht := htyped.argTypesOf hc (List.getElem?_eq_getElem hn) hvalue
    have ht' := htyped'.argTypesOf hc' (List.getElem?_eq_getElem hn') hvalue'
    obtain ⟨_, ht⟩ := List.getElem?_eq_some_iff.1 ht
    obtain ⟨_, ht'⟩ := List.getElem?_eq_some_iff.1 ht'
    rw [List.get_eq_getElem, List.get_eq_getElem, ht, ht']
    exact htype _ _ halike
  · rw [hR]
    exact hargs.imp fun _ _ hv => hv.1
  · rw [opsOf, opsOf, readBlock_of_block hrow, readBlock_of_block hrow']
    exact hops.length_eq

/-- Operations that are alike have the same line. -/
theorem Context.AlikeOp.line (hattributes : ∀ as as' : Attributes,
      List.Forall₂ (ctx.AlikeEntry ctx') as.entries as'.entries → s.attributes as as')
    (h : ctx.AlikeOp ctx' R o o') : s.Line ctx ctx' o o' := by
  obtain ⟨hrow, hrow', hkind, hentries, hoperands, htypes, hresults, hregions⟩ := h
  refine ⟨?_, ?_, ?_, ?_, ?_, ?_⟩
  · rw [kindOf, kindOf, readOp_of_op hrow, readOp_of_op hrow', hkind]
  · rw [attributesOf, attributesOf, readOp_of_op hrow, readOp_of_op hrow']
    exact hattributes _ _ hentries
  · rw [operandsOf, operandsOf, readOp_of_op hrow, readOp_of_op hrow', hR]
    exact hoperands
  · rw [resultTypesOf, resultTypesOf, readOp_of_op hrow, readOp_of_op hrow']
    exact htypes.imp htype
  · rw [results_eq_readOp, results_eq_readOp, readOp_of_op hrow, readOp_of_op hrow', hR]
    exact hresults
  · rw [regionsOf, regionsOf, readOp_of_op hrow, readOp_of_op hrow']
    refine hregions.imp fun r r' hr => ?_
    obtain ⟨hrow, hrow', hblocks⟩ := hr
    rw [blocksOf, blocksOf, readRegion_of_region hrow, readRegion_of_region hrow']
    exact hblocks.imp fun b b' hb => hb.label hR htype hc hc' htyped htyped'

end

/-! ## In the same order -/

section

variable {ctx ctx' : Context} {R : ValueRef → ValueRef → Prop} {top top' o o' : OpRef}

theorem Context.AlikeOp.childrenOf (h : ctx.AlikeOp ctx' R o o') :
    List.Forall₂ (ctx.AlikeOp ctx' R) (ctx.childrenOf o) (ctx'.childrenOf o') := by
  obtain ⟨hrow, hrow', -, -, -, -, -, hregions⟩ := h
  rw [Context.childrenOf, Context.childrenOf, regionsOf, regionsOf, readOp_of_op hrow,
    readOp_of_op hrow']
  refine List.rel_flatMap hregions fun r r' hr => ?_
  obtain ⟨hrow, hrow', hblocks⟩ := hr
  rw [blocksOf, blocksOf, readRegion_of_region hrow, readRegion_of_region hrow']
  refine List.rel_flatMap hblocks fun b b' hb => ?_
  obtain ⟨hrow, hrow', -, hops⟩ := hb
  rwa [opsOf, opsOf, readBlock_of_block hrow, readBlock_of_block hrow']

/-- A place in operations that are alike is behind others that are. -/
theorem Context.AlikeOp.aligned (h : ctx.AlikeOp ctx' R o o') {r r' : RegionRef} {b b' : BlockRef}
    {z z' : OpRef} (hr : Position.Matched (ctx.regionsOf o) (ctx'.regionsOf o') r r')
    (hb : Position.Matched (ctx.blocksOf r) (ctx'.blocksOf r') b b')
    (hz : Position.Matched (ctx.opsOf b) (ctx'.opsOf b') z z') :
    Position.Aligned (ctx.AlikeOp ctx' R) (ctx.childrenOf o) (ctx'.childrenOf o') z z' := by
  obtain ⟨hrow, hrow', -, -, -, -, -, hregions⟩ := h
  rw [regionsOf, regionsOf, readOp_of_op hrow, readOp_of_op hrow'] at hr
  rw [Context.childrenOf, Context.childrenOf, regionsOf, regionsOf, readOp_of_op hrow,
    readOp_of_op hrow']
  have hblocks {r r' : RegionRef} (hr : ctx.AlikeRegion ctx' R r r') :
      List.Forall₂ (ctx.AlikeBlock ctx' R) (ctx.blocksOf r) (ctx'.blocksOf r') := by
    obtain ⟨hrow, hrow', hblocks⟩ := hr
    rwa [blocksOf, blocksOf, readRegion_of_region hrow, readRegion_of_region hrow']
  have hops {b b' : BlockRef} (hb : ctx.AlikeBlock ctx' R b b') :
      List.Forall₂ (ctx.AlikeOp ctx' R) (ctx.opsOf b) (ctx'.opsOf b') := by
    obtain ⟨hrow, hrow', -, hops⟩ := hb
    rwa [opsOf, opsOf, readBlock_of_block hrow, readBlock_of_block hrow']
  have hrr := hr.rel hregions
  have hbb := hb.rel (hblocks hrr)
  exact (hr.aligned hregions).flatMap (fun r r' hr => List.rel_flatMap (hblocks hr) fun b b' hb =>
    hops hb) ((hb.aligned (hblocks hrr)).flatMap (fun b b' hb => hops hb) (hz.aligned (hops hbb)))

/-- Operations that are alike take the same numbers, from whichever one on. -/
theorem Context.Spans.shift {start stop start' stop' : Nat} {os os' : List OpRef}
    (h : ctx.Spans start os stop) (h' : ctx'.Spans start' os' stop')
    (hos : List.Forall₂ (ctx.AlikeOp ctx' R) os os') : stop + start' = stop' + start := by
  induction h generalizing start' stop' os' with
  | nil =>
    cases hos
    cases h'
    exact Nat.add_comm _ _
  | cons _ _ ih ihrest =>
    cases hos with
    | cons ho hos =>
      cases h' with
      | cons inside' rest' =>
        have hinside := ih inside' ho.childrenOf
        have hrest := ihrest rest' hos
        omega

/-- Operations at the same place have the same numbers, counted from the tops. -/
theorem Twin.index (h : Twin ctx ctx' top top' o o') (htop : ctx.AlikeOp ctx' R top top')
    (hspans : ∃ start, ctx.Spans start (ctx.childrenOf top) top.index)
    (hspans' : ∃ start, ctx'.Spans start (ctx'.childrenOf top') top'.index) :
    (∃ start, ctx.Spans start (ctx.childrenOf o) o.index) ∧
      (∃ start, ctx'.Spans start (ctx'.childrenOf o') o'.index) ∧
        o.index + top'.index = o'.index + top.index := by
  induction h with
  | top => exact ⟨hspans, hspans', Nat.add_comm _ _⟩
  | inside hy hr hb ho ih =>
    obtain ⟨⟨start, hspans⟩, ⟨start', hspans'⟩, heq⟩ := ih
    have hyy := hy.alike htop
    have hwhole := hspans.shift hspans' hyy.childrenOf
    obtain ⟨before, after, before', after', hl, hl', hbefore⟩ := hyy.aligned hr hb ho
    rw [hl] at hspans
    rw [hl'] at hspans'
    obtain ⟨middle, hspans, hrest⟩ := hspans.split
    obtain ⟨middle', hspans', hrest'⟩ := hspans'.split
    have hshift := hspans.shift hspans' hbefore
    cases hrest with
    | cons inside _ =>
      cases hrest' with
      | cons inside' _ =>
        have hz := ((hy.inside hr hb ho).alike htop).childrenOf
        have hinside := inside.shift inside' hz
        exact ⟨⟨_, inside⟩, ⟨_, inside'⟩, by omega⟩

end

end Offload
