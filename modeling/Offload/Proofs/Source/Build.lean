import Offload.Proofs.Ir.Loose
import Offload.Proofs.Validity
import Offload.Source.Build

/-!
# What reading builds

A program that was read stands in a sound context, as an operation without an
owner, and nothing in the context has been erased (`read_built`). So it is valid if
the checks find nothing in it (`read_valid`). Building allocates from the inside out
like copying does, and the statements about its steps are the same: the rows that were
there before stay, and what is made is new and free for the next step to own (`Built`).
What needs to be said of single steps only is said of whole programs by `Stepwise.op`.
-/

namespace Offload.Build

open Context

/-! ## Runs that succeed -/

/-- A step of building succeeds. -/
def Runs {α : Type} (x : BuildM α) (s : Builder) (a : α) (s' : Builder) : Prop :=
  x.run.run s = (.ok a, s')

section Runs

variable {α β : Type} {s s' : Builder}

theorem runs_bind {x : BuildM α} {f : α → BuildM β} {b : β} :
    Runs (x >>= f) s b s' ↔ ∃ a s₁, Runs x s a s₁ ∧ Runs (f a) s₁ b s' := by
  have hbind : (x >>= f).run.run s = match x.run.run s with
      | (.ok a, s₁) => (f a).run.run s₁
      | (.error e, s₁) => (.error e, s₁) := by
    change (ExceptT.bindCont f (x.run.run s).1).run (x.run.run s).2 = _
    rcases x.run.run s with ⟨_ | a, s₁⟩ <;> rfl
  rw [Runs, hbind]
  rcases hx : x.run.run s with ⟨_ | a, s₁⟩
  · refine iff_of_false (fun hrun => by cases hrun) ?_
    rintro ⟨a, s₁, ha, -⟩
    cases hx.symm.trans ha
  · constructor
    · exact fun hrun => ⟨a, s₁, hx, hrun⟩
    · rintro ⟨a', s₁', ha, hrun⟩
      cases hx.symm.trans ha
      exact hrun

theorem runs_pure {a b : α} : Runs (pure a) s b s' ↔ a = b ∧ s = s' := by
  constructor
  · intro hrun
    cases hrun
    exact ⟨rfl, rfl⟩
  · rintro ⟨rfl, rfl⟩
    rfl

theorem not_runs_throw {e : ReadError} {a : α} : ¬Runs (throw e) s a s' := fun hrun => by
  cases hrun

theorem runs_get {t : Builder} : Runs get s t s' ↔ t = s ∧ s' = s := by
  constructor
  · intro hrun
    cases hrun
    exact ⟨rfl, rfl⟩
  · rintro ⟨rfl, rfl⟩
    rfl

theorem runs_onContext {step : StateM Context α} {a : α} :
    Runs (onContext step) s a s' ↔
      a = (step.run s.context).1 ∧ s' = { s with context := (step.run s.context).2 } := by
  constructor
  · intro hrun
    cases hrun
    exact ⟨rfl, rfl⟩
  · rintro ⟨rfl, rfl⟩
    rfl

theorem runs_bind_names {names : List String} {values : List ValueRef} {a : Unit} :
    Runs (Build.bind names values) s a s' ↔
      s' = { s with names := (names.zip values).reverse ++ s.names } := by
  constructor
  · intro hrun
    cases hrun
    rfl
  · rintro rfl
    rfl

/-- To resolve a name changes nothing. -/
theorem context_of_resolve {place : Nat} {name : String} {v : ValueRef}
    (hrun : Runs (resolve place name) s v s') : s' = s := by
  rw [resolve] at hrun
  obtain ⟨t, s₁, hget, hlookup⟩ := runs_bind.1 hrun
  obtain ⟨rfl, rfl⟩ := runs_get.1 hget
  split at hlookup
  · exact (runs_pure.1 hlookup).2.symm
  · exact absurd hlookup not_runs_throw

theorem context_of_mapM_resolve {place : Nat} {names : List String} {vs : List ValueRef}
    (hrun : Runs (names.mapM (resolve place)) s vs s') : s' = s := by
  induction names generalizing s vs with
  | nil =>
    rw [List.mapM_nil] at hrun
    exact (runs_pure.1 hrun).2.symm
  | cons name names ih =>
    rw [List.mapM_cons] at hrun
    obtain ⟨v, s₁, hv, hrun⟩ := runs_bind.1 hrun
    obtain ⟨vs, s₂, hvs, hrun⟩ := runs_bind.1 hrun
    obtain ⟨-, rfl⟩ := runs_pure.1 hrun
    rw [ih hvs, context_of_resolve hv]

end Runs

/-! ## Types and attributes -/

/-- Contexts that differ at most in their types, paths and symbols. -/
def Interned (ctx ctx' : Context) : Prop :=
  ctx' = { ctx with types := ctx'.types, paths := ctx'.paths, symbols := ctx'.symbols }

theorem Interned.trans {ctx ctx₁ ctx₂ : Context} (h₁ : Interned ctx ctx₁)
    (h₂ : Interned ctx₁ ctx₂) : Interned ctx ctx₂ := by
  rw [Interned] at h₁ h₂ ⊢
  rw [h₂, h₁]

theorem interned_internType (ctx : Context) (node : TypeNode) :
    Interned ctx (ctx.internType node).1 := rfl

theorem interned_internPath (ctx : Context) (path : String) :
    Interned ctx (ctx.internPath path).1 := rfl

theorem interned_symbols (ctx : Context) (names : List String) :
    Interned ctx ((symbols names).run ctx).2 := rfl

mutual

theorem interned_type : ∀ (t : TypeTerm) (ctx : Context), Interned ctx ((type t).run ctx).2
  | .mk dialect name params entries, ctx => by
    rw [type]
    exact (((interned_types params ctx).trans (interned_symbols _ _)).trans
      (interned_attributes entries .empty _)).trans (interned_internType _ _)

theorem interned_types : ∀ (ts : List TypeTerm) (ctx : Context),
    Interned ctx ((types ts).run ctx).2
  | [], ctx => rfl
  | t :: ts, ctx => by
    rw [types]
    exact (interned_type t ctx).trans (interned_types ts _)

theorem interned_value : ∀ (a : AttributeTerm) (ctx : Context),
    Interned ctx ((value a).run ctx).2
  | .unit, ctx => by rw [value]; rfl
  | .bool _, ctx => by rw [value]; rfl
  | .int _, ctx => by rw [value]; rfl
  | .float _, ctx => by rw [value]; rfl
  | .string _, ctx => by rw [value]; rfl
  | .bytes _, ctx => by rw [value]; rfl
  | .type t, ctx => by rw [value]; exact interned_type t ctx
  | .symbol name, ctx => by rw [value]; exact interned_symbols ctx [name]
  | .location path _, ctx => by rw [value]; exact interned_internPath ctx path
  | .list items, ctx => by rw [value]; exact interned_values items ctx

theorem interned_values : ∀ (as : List AttributeTerm) (ctx : Context),
    Interned ctx ((values as).run ctx).2
  | [], ctx => rfl
  | a :: as, ctx => by
    rw [values]
    exact (interned_value a ctx).trans (interned_values as _)

theorem interned_attributes : ∀ (entries : List Entry) (as : Attributes) (ctx : Context),
    Interned ctx ((attributes entries as).run ctx).2
  | [], as, ctx => rfl
  | .mk key a :: rest, as, ctx => by
    rw [attributes]
    exact ((interned_value a ctx).trans (interned_symbols _ _)).trans
      (interned_attributes rest _ _)

end

theorem interned_headAttributes (head : Head) (ctx : Context) :
    Interned ctx ((headAttributes head).run ctx).2 :=
  (interned_symbols ctx (headSymbols head)).trans (interned_attributes head.entries _ _)

/-! ## Operations -/

/-- What building adds to a sound context. -/
structure Built (ctx ctx' : Context) : Prop where
  «extends» : ctx.Extends ctx'
  sound : ctx'.Sound
  live : ∀ o, ctx'.isErased o = true → ctx.isErased o = true

namespace Built

variable {ctx ctx₁ ctx₂ : Context}

theorem refl (h : ctx.Sound) : Built ctx ctx := ⟨.refl ctx, h, fun _ ho => ho⟩

theorem trans (h₁ : Built ctx ctx₁) (h₂ : Built ctx₁ ctx₂) : Built ctx ctx₂ :=
  ⟨h₁.extends.trans h₂.extends, h₂.sound, fun o ho => h₁.live o (h₂.live o ho)⟩

theorem interned (h : ctx.Sound) (hi : Interned ctx ctx₁) : Built ctx ctx₁ := by
  rw [hi]
  exact ⟨⟨fun _ _ ho => ho, fun _ _ hb => hb, fun _ _ hr => hr, fun _ _ hv => hv⟩, h.intern _ _ _,
    fun _ ho => ho⟩

theorem addBlock (h : ctx.Sound) (location : Location) (argTypes : List TypeRef) :
    Built ctx (ctx.addBlock location argTypes []).1 := by
  refine ⟨extends_addBlock, h.addBlock (by simp) (by simp) List.nodup_nil, fun o ho => ?_⟩
  rwa [isErased_eq_readOp, readOp_addBlock, if_neg List.not_mem_nil, ← isErased_eq_readOp] at ho

theorem addRegion {blocks : List BlockRef} (h : Built ctx ctx₁)
    (hmade : ∀ b ∈ blocks, MadeBlock ctx ctx₁ b) (hnodup : blocks.Nodup) (location : Location) :
    Built ctx (ctx₁.addRegion location blocks).1 := by
  refine ⟨h.extends.addRegion fun b hb => (hmade b hb).1, h.sound.addRegion
    (fun b hb => (hmade b hb).2.1) (fun b hb => (hmade b hb).2.2) hnodup, fun o ho => h.live o ?_⟩
  rwa [isErased_eq_readOp, readOp_addRegion, ← isErased_eq_readOp] at ho

theorem addOp {blueprint : Blueprint} (h : Built ctx ctx₁)
    (hmade : ∀ r ∈ blueprint.regions, MadeRegion ctx ctx₁ r) (hnodup : blueprint.regions.Nodup) :
    Built ctx (ctx₁.addOp blueprint).1 := by
  refine ⟨h.extends.addOp fun r hr => (hmade r hr).1, h.sound.addOp
    (fun r hr => (hmade r hr).2.1) (fun r hr => (hmade r hr).2.2) hnodup, fun o ho => h.live o ?_⟩
  rw [isErased_eq_readOp, readOp_addOp] at ho
  split at ho
  · cases ho
  · rwa [isErased_eq_readOp]

end Built

/-- Operations were built into a free block `b`, which stays free. -/
structure Filled (b : BlockRef) (ctx ctx' : Context) : Prop where
  sound : ctx'.Sound
  hasBlock : ctx'.HasBlock b
  free : ctx'.regionOf b = none
  extended : ∀ old : Context, old.Extends ctx → ¬old.HasBlock b → old.Extends ctx'
  live : ∀ o, ctx'.isErased o = true → ctx.isErased o = true

/-- An operation is built, and listed at the end of a block. -/
theorem Filled.append {b : BlockRef} {ctx ctx₁ : Context} {o : OpRef} (h : Built ctx ctx₁)
    (hmade : MadeOp ctx ctx₁ o) (hb : ctx.HasBlock b) (hfree : ctx.regionOf b = none) :
    Filled b ctx (ctx₁.append b o) := by
  have hb₁ := h.extends.hasBlock hb
  have hfree₁ : ctx₁.regionOf b = none := (h.extends.readBlock hb _ _).trans hfree
  have hput := pushOp_put h.sound.coherent (pushOp_eq_ok.2 ⟨hmade.2.1, hb₁, hmade.2.2, rfl⟩)
  refine ⟨h.sound.append hmade.2.1 hb₁ hmade.2.2 fun t ht => ?_,
    hput.relisted.inPlace.hasBlock.2 hb₁,
    (congrFun hput.relisted.inPlace.regionOf b).trans hfree₁,
    fun old hold hn => (hold.trans h.extends).append hn fun ho => hmade.1 (hold.hasOp ho),
    fun p hp => h.live p ?_⟩
  · rw [holder, hfree₁] at ht
    cases ht
  · exact (congrFun hput.relisted.erased p).symm.trans hp

theorem Filled.trans {b : BlockRef} {ctx ctx₁ ctx₂ : Context} (h₁ : Filled b ctx ctx₁)
    (h₂ : Filled b ctx₁ ctx₂) : Filled b ctx ctx₂ :=
  ⟨h₂.sound, h₂.hasBlock, h₂.free, fun old hold hn => h₂.extended old (h₁.extended old hold hn) hn,
    fun o ho => h₁.live o (h₂.live o ho)⟩

/-! ### What the steps do -/

/-- What goes on when an operation is built. -/
theorem op_steps {head : Head} {terms : List RegionTerm} {s s' : Builder} {o : OpRef}
    (hrun : Runs (op (.mk head terms)) s o s') :
    head.results.length = head.types.length ∧
      ∃ operands attributes ctx₁ resultTypes ctx₂ rs s₂ blueprint,
        Runs (head.operands.mapM (resolve head.span.start)) s operands s ∧
        (headAttributes head).run s.context = (attributes, ctx₁) ∧
        (types head.types).run ctx₁ = (resultTypes, ctx₂) ∧
        Runs (regions ⟨s.path, head.span⟩ terms) { s with context := ctx₂ } rs s₂ ∧
        blueprint = ⟨⟨s.path, head.span⟩, head.kind, operands, resultTypes, attributes, rs⟩ ∧
        o = ⟨s₂.context.ops.size⟩ ∧
        s' = { s₂ with
          context := (s₂.context.addOp blueprint).1
          names := (head.results.zip ((s₂.context.addOp blueprint).1.results o)).reverse
            ++ s₂.names } := by
  rw [op] at hrun
  split at hrun
  · obtain ⟨_, _, hthrow, -⟩ := runs_bind.1 hrun
    exact absurd hthrow not_runs_throw
  rename_i hlength
  obtain ⟨_, _, hget, hrun₁⟩ := runs_bind.1 hrun
  obtain ⟨rfl, rfl⟩ := runs_get.1 hget
  obtain ⟨operands, _, hoperands, hrun₂⟩ := runs_bind.1 hrun₁
  obtain rfl := context_of_mapM_resolve hoperands
  obtain ⟨attrs, _, hattrs, hrun₃⟩ := runs_bind.1 hrun₂
  obtain ⟨rfl, rfl⟩ := runs_onContext.1 hattrs
  obtain ⟨resultTypes, _, htypes, hrun₄⟩ := runs_bind.1 hrun₃
  obtain ⟨rfl, rfl⟩ := runs_onContext.1 htypes
  obtain ⟨rs, s₂, hregions, hrun₅⟩ := runs_bind.1 hrun₄
  obtain ⟨_, _, ho, hrun₆⟩ := runs_bind.1 hrun₅
  obtain ⟨rfl, rfl⟩ := runs_onContext.1 ho
  obtain ⟨_, _, hget₂, hrun₇⟩ := runs_bind.1 hrun₆
  obtain ⟨rfl, rfl⟩ := runs_get.1 hget₂
  obtain ⟨_, _, hbind, hrun₈⟩ := runs_bind.1 hrun₇
  obtain rfl := runs_bind_names.1 hbind
  obtain ⟨rfl, rfl⟩ := runs_pure.1 hrun₈
  exact ⟨not_ne_iff.1 hlength, operands, _, _, _, _, rs, s₂, _, hoperands, rfl, rfl, hregions, rfl,
    rfl, rfl⟩

theorem op_runs {head : Head} {terms : List RegionTerm} {s s' : Builder} {o : OpRef}
    (hrun : Runs (op (.mk head terms)) s o s') :
    ∃ ctx₁ blueprint rs s₂, Interned s.context ctx₁ ∧
      Runs (regions blueprint.location terms) { s with context := ctx₁ } rs s₂ ∧
      blueprint.regions = rs ∧ o = ⟨s₂.context.ops.size⟩ ∧
      s'.context = (s₂.context.addOp blueprint).1 := by
  obtain ⟨-, operands, _, ctx₁, _, ctx₂, rs, s₂, blueprint, -, hattributes, htypes, hregions, rfl,
    rfl, rfl⟩ := op_steps hrun
  obtain rfl : ((headAttributes head).run s.context).2 = ctx₁ := congrArg Prod.snd hattributes
  obtain rfl : ((types head.types).run _).2 = ctx₂ := congrArg Prod.snd htypes
  exact ⟨_, _, rs, s₂, (interned_headAttributes head _).trans (interned_types head.types _),
    hregions, rfl, rfl, rfl⟩

theorem regions_cons_runs {location : Location} {terms : List BlockTerm} {rest : List RegionTerm}
    {s s' : Builder} {rs : List RegionRef}
    (hrun : Runs (regions location (.mk terms :: rest)) s rs s') :
    ∃ bs s₁ rs', Runs (blocks location terms) s bs s₁ ∧
      Runs (regions location rest)
        { s₁ with context := (s₁.context.addRegion location bs).1 } rs' s' ∧
      rs = ⟨s₁.context.regions.size⟩ :: rs' := by
  rw [regions] at hrun
  obtain ⟨bs, s₁, hbs, hrun₁⟩ := runs_bind.1 hrun
  obtain ⟨_, _, hr, hrun₂⟩ := runs_bind.1 hrun₁
  obtain ⟨rfl, rfl⟩ := runs_onContext.1 hr
  obtain ⟨rs', _, hrest, hrun₃⟩ := runs_bind.1 hrun₂
  obtain ⟨rfl, rfl⟩ := runs_pure.1 hrun₃
  exact ⟨bs, s₁, rs', hbs, hrest, rfl⟩

/-- What goes on when a block is built. -/
theorem blocks_cons_steps {location : Location} {label : Option Label} {terms : List OpTerm}
    {rest : List BlockTerm} {s s' : Builder} {bs : List BlockRef}
    (hrun : Runs (blocks location (.mk label terms :: rest)) s bs s') :
    ∃ argTypes ctx₁ s₂ bs',
      (types (((label.map Label.args).getD []).map Prod.snd)).run s.context = (argTypes, ctx₁) ∧
      Runs (ops ⟨ctx₁.blocks.size⟩ terms)
        { s with
          context := (ctx₁.addBlock location argTypes []).1
          names := ((((label.map Label.args).getD []).map Prod.fst).zip
            ((ctx₁.addBlock location argTypes []).1.args ⟨ctx₁.blocks.size⟩)).reverse
              ++ s.names } () s₂ ∧
      Runs (blocks location rest) s₂ bs' s' ∧ bs = ⟨ctx₁.blocks.size⟩ :: bs' := by
  rw [blocks] at hrun
  obtain ⟨argTypes, _, htypes, hrun₁⟩ := runs_bind.1 hrun
  obtain ⟨rfl, rfl⟩ := runs_onContext.1 htypes
  obtain ⟨_, _, hb, hrun₂⟩ := runs_bind.1 hrun₁
  obtain ⟨rfl, rfl⟩ := runs_onContext.1 hb
  obtain ⟨_, _, hget, hrun₃⟩ := runs_bind.1 hrun₂
  obtain ⟨rfl, rfl⟩ := runs_get.1 hget
  obtain ⟨_, _, hbind, hrun₄⟩ := runs_bind.1 hrun₃
  obtain rfl := runs_bind_names.1 hbind
  obtain ⟨_, s₂, hops, hrun₅⟩ := runs_bind.1 hrun₄
  obtain ⟨bs', _, hrest, hrun₆⟩ := runs_bind.1 hrun₅
  obtain ⟨rfl, rfl⟩ := runs_pure.1 hrun₆
  exact ⟨_, _, s₂, bs', rfl, hops, hrest, rfl⟩

theorem blocks_cons_runs {location : Location} {label : Option Label} {terms : List OpTerm}
    {rest : List BlockTerm} {s s' : Builder} {bs : List BlockRef}
    (hrun : Runs (blocks location (.mk label terms :: rest)) s bs s') :
    ∃ ctx₁ argTypes names s₂ bs', Interned s.context ctx₁ ∧
      Runs (ops ⟨ctx₁.blocks.size⟩ terms)
        { s with context := (ctx₁.addBlock location argTypes []).1, names := names } () s₂ ∧
      Runs (blocks location rest) s₂ bs' s' ∧ bs = ⟨ctx₁.blocks.size⟩ :: bs' := by
  obtain ⟨argTypes, ctx₁, s₂, bs', htypes, hops, hrest, rfl⟩ := blocks_cons_steps hrun
  obtain rfl : ((types _).run s.context).2 = ctx₁ := congrArg Prod.snd htypes
  exact ⟨_, argTypes, _, s₂, bs', interned_types _ _, hops, hrest, rfl⟩

theorem ops_cons_runs {b : BlockRef} {term : OpTerm} {rest : List OpTerm} {s s' : Builder}
    {u : Unit} (hrun : Runs (ops b (term :: rest)) s u s') :
    ∃ o s₁, Runs (op term) s o s₁ ∧
      Runs (ops b rest) { s₁ with context := s₁.context.append b o } () s' := by
  rw [ops] at hrun
  obtain ⟨o, s₁, ho, hrun₁⟩ := runs_bind.1 hrun
  obtain ⟨_, _, happend, hrun₂⟩ := runs_bind.1 hrun₁
  obtain ⟨-, rfl⟩ := runs_onContext.1 happend
  exact ⟨o, s₁, ho, hrun₂⟩

/-! ### What all steps have in common -/

/-- A relation of contexts in which every step of building stands, and two in a row do if each of
    them does. -/
structure Stepwise (R : Context → Context → Prop) : Prop where
  refl : ∀ ctx, R ctx ctx
  trans : ∀ {ctx ctx₁ ctx₂}, R ctx ctx₁ → R ctx₁ ctx₂ → R ctx ctx₂
  headAttributes : ∀ head ctx, R ctx ((headAttributes head).run ctx).2
  types : ∀ terms ctx, R ctx ((types terms).run ctx).2
  addOp : ∀ blueprint ctx, R ctx (ctx.addOp blueprint).1
  addBlock : ∀ location argTypes ctx, R ctx (ctx.addBlock location argTypes []).1
  addRegion : ∀ location blocks ctx, R ctx (ctx.addRegion location blocks).1
  append : ∀ b o ctx, R ctx (ctx.append b o)

namespace Stepwise

variable {R : Context → Context → Prop} (h : Stepwise R)

include h

mutual

theorem op : ∀ (term : OpTerm) {s s' : Builder} {o : OpRef}, Runs (op term) s o s' →
    R s.context s'.context
  | .mk head terms, s, s', o, hrun => by
    obtain ⟨-, _, _, _, _, _, rs, s₂, blueprint, -, hattributes, htypes, hregions, -, -, rfl⟩ :=
      op_steps hrun
    obtain rfl := congrArg Prod.snd hattributes
    obtain rfl := congrArg Prod.snd htypes
    exact h.trans (h.trans (h.trans (h.headAttributes head _) (h.types head.types _))
      (regions terms hregions)) (h.addOp blueprint _)

theorem regions : ∀ {location : Location} (terms : List RegionTerm) {s s' : Builder}
    {rs : List RegionRef}, Runs (regions location terms) s rs s' → R s.context s'.context
  | location, [], s, s', rs, hrun => by
    rw [Build.regions] at hrun
    obtain ⟨rfl, rfl⟩ := runs_pure.1 hrun
    exact h.refl _
  | location, .mk terms :: rest, s, s', rs, hrun => by
    obtain ⟨bs, s₁, rs', hblocks, hrest, rfl⟩ := regions_cons_runs hrun
    exact h.trans (h.trans (blocks terms hblocks) (h.addRegion location bs _)) (regions rest hrest)

theorem blocks : ∀ {location : Location} (terms : List BlockTerm) {s s' : Builder}
    {bs : List BlockRef}, Runs (blocks location terms) s bs s' → R s.context s'.context
  | location, [], s, s', bs, hrun => by
    rw [Build.blocks] at hrun
    obtain ⟨rfl, rfl⟩ := runs_pure.1 hrun
    exact h.refl _
  | location, .mk label terms :: rest, s, s', bs, hrun => by
    obtain ⟨argTypes, _, s₂, bs', htypes, hops, hrest, rfl⟩ := blocks_cons_steps hrun
    obtain rfl := congrArg Prod.snd htypes
    exact h.trans (h.trans (h.trans (h.types _ _) (h.addBlock location argTypes _))
      (ops terms hops)) (blocks rest hrest)

theorem ops : ∀ {b : BlockRef} (terms : List OpTerm) {s s' : Builder} {u : Unit},
    Runs (ops b terms) s u s' → R s.context s'.context
  | b, [], s, s', u, hrun => by
    rw [Build.ops] at hrun
    obtain ⟨-, rfl⟩ := runs_pure.1 hrun
    exact h.refl _
  | b, term :: rest, s, s', u, hrun => by
    obtain ⟨o, s₁, ho, hrest⟩ := ops_cons_runs hrun
    exact h.trans (h.trans (op term ho) (h.append b o _)) (ops rest hrest)

end

end Stepwise

/-! ### What the steps achieve -/

mutual

theorem op_spec : ∀ (term : OpTerm) (s : Builder) (o : OpRef) (s' : Builder),
    s.context.Sound → Runs (op term) s o s' →
      Built s.context s'.context ∧ MadeOp s.context s'.context o
  | .mk head terms, s, o, s', hs, hrun => by
    obtain ⟨ctx₁, blueprint, rs, s₂, hi, hregions, rfl, rfl, hs'⟩ := op_runs hrun
    have h₁ := Built.interned hs hi
    obtain ⟨h₂, hmade, hnodup⟩ := regions_spec _ terms _ _ s₂ h₁.sound hregions
    have h₃ := (h₁.trans h₂).addOp (fun r hr => (hmade r hr).widen h₁.extends (.refl _)) hnodup
    rw [hs']
    refine ⟨h₃, fun ho => not_hasOp_size ((h₁.trans h₂).extends.hasOp ho), ?_, ?_⟩
    · exact hasOp_iff.2 ⟨_, by rw [op_iff_readOp, readOp_addOp, if_pos rfl]⟩
    · rw [blockOf_addOp, blockOf, readOp_of_not_hasOp not_hasOp_size]

theorem regions_spec : ∀ (location : Location) (terms : List RegionTerm) (s : Builder)
    (rs : List RegionRef) (s' : Builder), s.context.Sound →
      Runs (regions location terms) s rs s' →
      Built s.context s'.context ∧ (∀ r ∈ rs, MadeRegion s.context s'.context r) ∧ rs.Nodup
  | location, [], s, rs, s', hs, hrun => by
    rw [regions] at hrun
    obtain ⟨rfl, rfl⟩ := runs_pure.1 hrun
    exact ⟨.refl hs, by simp, List.nodup_nil⟩
  | location, .mk terms :: rest, s, rs, s', hs, hrun => by
    obtain ⟨bs, s₁, rs', hblocks, hrest, rfl⟩ := regions_cons_runs hrun
    obtain ⟨h₁, hmade₁, hnodup₁⟩ := blocks_spec location terms s bs s₁ hs hblocks
    have h₂ := h₁.addRegion hmade₁ hnodup₁ location
    obtain ⟨h₃, hmade₃, hnodup₃⟩ := regions_spec location rest _ rs' s' h₂.sound hrest
    have hmade : MadeRegion s.context (s₁.context.addRegion location bs).1
        ⟨s₁.context.regions.size⟩ := by
      refine ⟨fun hr => not_hasRegion_size (h₁.extends.hasRegion hr), ?_, ?_⟩
      · exact hasRegion_iff.2 ⟨⟨location, bs, none⟩, by
          rw [region_iff_readRegion, readRegion_addRegion, if_pos rfl]⟩
      · rw [ownerOf, readRegion_addRegion, if_pos rfl]
    refine ⟨h₂.trans h₃, List.forall_mem_cons.2 ⟨hmade.widen (.refl _) h₃.extends,
      fun r hr => (hmade₃ r hr).widen h₂.extends (.refl _)⟩, List.nodup_cons.2 ⟨fun hm => ?_, hnodup₃⟩⟩
    exact (hmade₃ _ hm).1 hmade.2.1

theorem blocks_spec : ∀ (location : Location) (terms : List BlockTerm) (s : Builder)
    (bs : List BlockRef) (s' : Builder), s.context.Sound →
      Runs (blocks location terms) s bs s' →
      Built s.context s'.context ∧ (∀ b ∈ bs, MadeBlock s.context s'.context b) ∧ bs.Nodup
  | location, [], s, bs, s', hs, hrun => by
    rw [blocks] at hrun
    obtain ⟨rfl, rfl⟩ := runs_pure.1 hrun
    exact ⟨.refl hs, by simp, List.nodup_nil⟩
  | location, .mk label terms :: rest, s, bs, s', hs, hrun => by
    obtain ⟨ctx₁, argTypes, names, s₂, bs', hi, hops, hrest, rfl⟩ := blocks_cons_runs hrun
    have h₁ := Built.interned hs hi
    have h₂ := Built.addBlock h₁.sound location argTypes
    have hnew : ¬s.context.HasBlock ⟨ctx₁.blocks.size⟩ := fun hb =>
      not_hasBlock_size (h₁.extends.hasBlock hb)
    have hrow : (ctx₁.addBlock location argTypes []).1.block ⟨ctx₁.blocks.size⟩ =
        .ok ⟨location, argTypes, ctx₁.nextValues argTypes.length, [], none⟩ := by
      rw [block_iff_readBlock, readBlock_addBlock, if_pos rfl]
    have hfilled := ops_spec ⟨ctx₁.blocks.size⟩ terms _ () s₂ h₂.sound
      (hasBlock_iff.2 ⟨_, hrow⟩) (readBlock_of_block hrow _ _) hops
    have h₃ : Built s.context s₂.context :=
      ⟨hfilled.extended _ (h₁.trans h₂).extends hnew, hfilled.sound,
        fun o ho => (h₁.trans h₂).live o (hfilled.live o ho)⟩
    have hmade : MadeBlock s.context s₂.context ⟨ctx₁.blocks.size⟩ :=
      ⟨hnew, hfilled.hasBlock, hfilled.free⟩
    obtain ⟨h₄, hmade₄, hnodup₄⟩ := blocks_spec location rest s₂ bs' s' hfilled.sound hrest
    refine ⟨h₃.trans h₄, List.forall_mem_cons.2 ⟨hmade.widen (.refl _) h₄.extends,
      fun b hb => (hmade₄ b hb).widen h₃.extends (.refl _)⟩, List.nodup_cons.2 ⟨fun hm => ?_, hnodup₄⟩⟩
    exact (hmade₄ _ hm).1 hmade.2.1

theorem ops_spec : ∀ (b : BlockRef) (terms : List OpTerm) (s : Builder) (u : Unit)
    (s' : Builder), s.context.Sound → s.context.HasBlock b → s.context.regionOf b = none →
      Runs (ops b terms) s u s' → Filled b s.context s'.context
  | b, [], s, u, s', hs, hb, hfree, hrun => by
    rw [ops] at hrun
    obtain ⟨-, rfl⟩ := runs_pure.1 hrun
    exact ⟨hs, hb, hfree, fun _ hold _ => hold, fun _ ho => ho⟩
  | b, term :: rest, s, u, s', hs, hb, hfree, hrun => by
    obtain ⟨o, s₁, ho, hrest⟩ := ops_cons_runs hrun
    obtain ⟨h₁, hmade⟩ := op_spec term s o s₁ hs ho
    have h₂ := Filled.append h₁ hmade hb hfree
    exact h₂.trans (ops_spec b rest { s₁ with context := s₁.context.append b o } () s' h₂.sound
      h₂.hasBlock h₂.free hrest)

end

/-! ### What stays loose -/

theorem Interned.loosened {ctx ctx' : Context} (h : Interned ctx ctx') :
    ctx.Loosened [] [] [] ctx' := by
  rw [h]
  exact ⟨fun _ => .inr, fun _ => .inr, fun _ => .inr⟩

mutual

theorem op_loosened : ∀ (term : OpTerm) (s : Builder) (o : OpRef) (s' : Builder),
    Runs (op term) s o s' → s.context.Loosened [o] [] [] s'.context
  | .mk head terms, s, o, s', hrun => by
    obtain ⟨ctx₁, blueprint, rs, s₂, hi, hregions, rfl, rfl, hs'⟩ := op_runs hrun
    rw [hs']
    exact (hi.loosened.trans (regions_loosened _ terms _ _ s₂ hregions)).addOp

theorem regions_loosened : ∀ (location : Location) (terms : List RegionTerm) (s : Builder)
    (rs : List RegionRef) (s' : Builder), Runs (regions location terms) s rs s' →
      s.context.Loosened [] [] rs s'.context
  | location, [], s, rs, s', hrun => by
    rw [regions] at hrun
    obtain ⟨rfl, rfl⟩ := runs_pure.1 hrun
    exact .refl _
  | location, .mk terms :: rest, s, rs, s', hrun => by
    obtain ⟨bs, s₁, rs', hblocks, hrest, rfl⟩ := regions_cons_runs hrun
    exact ((blocks_loosened location terms s bs s₁ hblocks).addRegion location).trans
      (regions_loosened location rest _ rs' s' hrest)

theorem blocks_loosened : ∀ (location : Location) (terms : List BlockTerm) (s : Builder)
    (bs : List BlockRef) (s' : Builder), Runs (blocks location terms) s bs s' →
      s.context.Loosened [] bs [] s'.context
  | location, [], s, bs, s', hrun => by
    rw [blocks] at hrun
    obtain ⟨rfl, rfl⟩ := runs_pure.1 hrun
    exact .refl _
  | location, .mk label terms :: rest, s, bs, s', hrun => by
    obtain ⟨ctx₁, argTypes, names, s₂, bs', hi, hops, hrest, rfl⟩ := blocks_cons_runs hrun
    exact ((hi.loosened.addBlock location argTypes).trans (ops_loosened _ terms _ () s₂ hops)).trans
      (blocks_loosened location rest s₂ bs' s' hrest)

theorem ops_loosened : ∀ (b : BlockRef) (terms : List OpTerm) (s : Builder) (u : Unit)
    (s' : Builder), Runs (ops b terms) s u s' → s.context.Loosened [] [] [] s'.context
  | b, [], s, u, s', hrun => by
    rw [ops] at hrun
    obtain ⟨-, rfl⟩ := runs_pure.1 hrun
    exact .refl _
  | b, term :: rest, s, u, s', hrun => by
    obtain ⟨o, s₁, ho, hrest⟩ := ops_cons_runs hrun
    exact ((op_loosened term s o s₁ ho).append b).trans (ops_loosened b rest _ () s' hrest)

end

/-! ## Reading -/

/-- What a program is read into to start with: a context that knows the path. -/
def start (ctx : Context) (path : String) : Builder :=
  ⟨(ctx.internPath path).1, [], (ctx.internPath path).2⟩

/-- To read a program is to build the term of its text. -/
theorem read_eq_ok {ctx ctx' : Context} {path text : String} {root : OpRef} :
    ctx.read path text = (.ok root, ctx') ↔
      ∃ term s, readTerm text = .ok term ∧ Runs (op term) (start ctx path) root s ∧
        ctx' = s.context := by
  unfold Context.read
  constructor
  · intro hread
    split at hread
    · cases hread
    · rename_i term hterm
      obtain ⟨hroot, rfl⟩ := Prod.mk.inj hread
      exact ⟨term, _, hterm, Prod.ext hroot rfl, rfl⟩
  · rintro ⟨term, s, hterm, hrun, rfl⟩
    have hrun' : (op term).run.run
        { context := (ctx.internPath path).1, names := [],
          path := (ctx.internPath path).2 } = (.ok root, s) := hrun
    simp only [hterm, hrun']

theorem built_start {ctx : Context} (h : ctx.Sound) (path : String) :
    Built ctx (start ctx path).context := Built.interned h (interned_internPath ctx path)

/-- A program that was read is an operation without an owner in a sound context, and
    nothing has been erased. -/
theorem read_built {path text : String} {root : OpRef} {ctx : Context}
    (hread : Context.empty.read path text = (.ok root, ctx)) :
    ctx.Sound ∧ ctx.HasOp root ∧ ctx.blockOf root = none ∧ ∀ o, ctx.isErased o = false := by
  obtain ⟨term, s, -, hrun, rfl⟩ := read_eq_ok.1 hread
  have h₁ := built_start sound_empty path
  obtain ⟨h₂, hmade⟩ := op_spec term _ root s h₁.sound hrun
  refine ⟨h₂.sound, hmade.2.1, hmade.2.2, fun o => Bool.eq_false_iff.2 fun ho => ?_⟩
  have hempty := (h₁.trans h₂).live o ho
  cases hempty

/-- A program in which the checks find nothing after it was read is valid. -/
theorem read_valid {path text : String} {root : OpRef} {ctx : Context} {findings : Findings}
    (hread : Context.empty.read path text = (.ok root, ctx))
    (hfindings : ctx.findings root = .ok findings) (hvalid : findings.isEmpty) :
    ctx.Valid root := by
  obtain ⟨hsound, hroot, -, hlive⟩ := read_built hread
  exact (hsound.findings_isEmpty_iff hroot fun o _ => by rw [hlive]; decide).1
    ⟨findings, hfindings, hvalid⟩

/-- All there is after a program was read is nested in it. -/
theorem read_within {path text : String} {root : OpRef} {ctx : Context}
    (hread : Context.empty.read path text = (.ok root, ctx)) {o : OpRef} (ho : ctx.HasOp o) :
    ctx.Within o root := by
  obtain ⟨term, s, -, hrun, rfl⟩ := read_eq_ok.1 hread
  have h₁ := built_start sound_empty path
  obtain ⟨h₂, -⟩ := op_spec term _ root s h₁.sound hrun
  have hloosened := (interned_internPath Context.empty path).loosened.trans
    (op_loosened term _ root s hrun)
  exact hloosened.within (h₁.trans h₂).extends coherent_empty h₂.sound ho (Nat.not_lt_zero _)

/-- Whether a text can be read, into a context that passes a test. -/
def reads (path text : String) (test : OpRef → Context → Bool) : Bool :=
  match Context.empty.read path text with
  | (.error _, _) => false
  | (.ok root, ctx) => test root ctx

theorem exists_of_reads {path text : String} {test : OpRef → Context → Bool}
    (h : reads path text test) : ∃ root ctx,
      Context.empty.read path text = (.ok root, ctx) ∧ test root ctx := by
  unfold reads at h
  split at h
  · cases h
  · rename_i root ctx hread
    exact ⟨root, ctx, hread, h⟩

/-! ### Texts as characters

To decode the bytes of a text takes many steps. A text that is evaluated is taken as its
characters, which a literal text already is by definition. -/

/-- The operation that characters spell, if they spell one. -/
def termOf? (cs : List Char) : Option OpTerm :=
  match Source.operation (Text.Reader.byteLength cs) (cs.length + 2) cs with
  | .stuck _ => none
  | .done term rest => if (rest.dropWhile Source.isSpace).isEmpty then some term else none

theorem readTerm_ofList {cs : List Char} {term : OpTerm} (h : termOf? cs = some term) :
    readTerm (String.ofList cs) = .ok term := by
  rw [termOf?] at h
  unfold readTerm
  rw [String.toList_ofList]
  dsimp only
  generalize Source.operation (Text.Reader.byteLength cs) (cs.length + 2) cs = reading at h ⊢
  cases reading with
  | stuck place => cases h
  | done found rest =>
    dsimp only at h ⊢
    by_cases hempty : (rest.dropWhile Source.isSpace).isEmpty
    · rw [if_pos hempty] at h ⊢
      exact congrArg Except.ok (Option.some.inj h)
    · rw [if_neg hempty] at h
      cases h

/-- Whether characters can be read, into a context that passes a test. -/
def readsChars (path : String) (cs : List Char) (test : OpRef → Context → Bool) : Bool :=
  (termOf? cs).any fun term =>
    match (op term).run.run (start Context.empty path) with
    | (.ok root, s) => test root s.context
    | (.error _, _) => false

theorem exists_of_readsChars {path : String} {cs : List Char} {test : OpRef → Context → Bool}
    (h : readsChars path cs test) : ∃ root ctx,
      Context.empty.read path (String.ofList cs) = (.ok root, ctx) ∧ test root ctx := by
  obtain ⟨term, hterm, h⟩ := (Option.any_eq_true _ _).1 h
  rcases hrun : (op term).run.run (start Context.empty path) with ⟨e | root, s⟩ <;> rw [hrun] at h
  · cases h
  · exact ⟨root, s.context, read_eq_ok.2 ⟨term, s, readTerm_ofList hterm, hrun, rfl⟩, h⟩

theorem reads_ofList {path : String} {cs : List Char} {test : OpRef → Context → Bool}
    (h : readsChars path cs test) : reads path (String.ofList cs) test := by
  obtain ⟨root, ctx, hread, h⟩ := exists_of_readsChars h
  unfold reads
  rw [hread]
  exact h

end Offload.Build
