import Offload.Proofs.Source.Build
import Offload.Proofs.Source.Normal

/-!
# Names that resolve

Two things stop the building of a term: a name without a value, and results of another
number than their types. Both stop the normal form as well, which follows the names in
the same way, so a term with a normal form can be built (`exists_runs_of_normal`).
-/

namespace Offload.Build

open Context

/-- The same names are bound. -/
def SameNames (s : Builder) (st : Numbering) : Prop := s.names.map Prod.fst = st.names.map Prod.fst

theorem exists_lookup {β γ : Type} {l : List (String × β)} {l' : List (String × γ)}
    (h : l.map Prod.fst = l'.map Prod.fst) {name : String} {c : γ}
    (hc : l'.lookup name = some c) : ∃ b, l.lookup name = some b := by
  induction l generalizing l' with
  | nil =>
    rw [List.map_nil, eq_comm, List.map_eq_nil_iff] at h
    rw [h] at hc
    cases hc
  | cons p l ih =>
    obtain ⟨q, l', rfl⟩ := List.exists_cons_of_ne_nil (l := l') (by
      rintro rfl
      cases h)
    obtain ⟨x, b⟩ := p
    obtain ⟨y, d⟩ := q
    rw [List.map_cons, List.map_cons, List.cons.injEq] at h
    obtain ⟨rfl, h⟩ := h
    rw [List.lookup_cons] at hc ⊢
    cases hname : name == x with
    | true => exact ⟨b, rfl⟩
    | false =>
      rw [hname] at hc
      exact ih h hc

variable {s : Builder} {st st' : Numbering}

theorem SameNames.bind (st : Numbering) (h : SameNames s st) {names : List String}
    {vs : List ValueRef} {ns : List Nat} (hvs : vs.length = names.length) (hns : ns.length = names.length)
    (context : Context) :
    SameNames { s with context, names := (names.zip vs).reverse ++ s.names } (st.bind names ns) := by
  rw [SameNames] at h ⊢
  rw [Numbering.bind, List.map_append, List.map_append, h, List.map_reverse, List.map_reverse,
    List.map_fst_zip hvs.ge, List.map_fst_zip hns.ge]

theorem SameNames.resolve (h : SameNames s st) (place : Nat) {names : List String} {ns : List Nat}
    (hns : names.mapM st.resolve = some ns) :
    ∃ vs, Runs (names.mapM (resolve place)) s vs s := by
  induction names generalizing ns with
  | nil => exact ⟨[], by rw [List.mapM_nil]; exact runs_pure.2 ⟨rfl, rfl⟩⟩
  | cons name names ih =>
    simp only [List.mapM_cons, Option.bind_eq_bind, Option.bind_eq_some_iff] at hns
    obtain ⟨n, hn, ns, hns, -⟩ := hns
    obtain ⟨vs, hvs⟩ := ih hns
    obtain ⟨v, hv⟩ := exists_lookup h hn
    have hrun : Runs (Build.resolve place name) s v s := by
      rw [Build.resolve]
      refine runs_bind.2 ⟨s, s, runs_get.2 ⟨rfl, rfl⟩, ?_⟩
      rw [hv]
      exact runs_pure.2 ⟨rfl, rfl⟩
    refine ⟨v :: vs, ?_⟩
    rw [List.mapM_cons]
    exact runs_bind.2 ⟨v, s, hrun, runs_bind.2 ⟨vs, s, hvs, runs_pure.2 ⟨rfl, rfl⟩⟩⟩

theorem length_types (ts : List TypeTerm) (ctx : Context) :
    ((types ts).run ctx).1.length = ts.length := by
  induction ts generalizing ctx with
  | nil => rfl
  | cons t ts ih =>
    rw [types]
    exact congrArg (· + 1) (ih _)

theorem length_results_addOp (ctx : Context) (blueprint : Blueprint) :
    ((ctx.addOp blueprint).1.results ⟨ctx.ops.size⟩).length = blueprint.resultTypes.length := by
  rw [results_eq_readOp, readOp_addOp, if_pos rfl]
  simp [freshRow, nextValues]

theorem length_args_addBlock (ctx : Context) (location : Location) (argTypes : List TypeRef) :
    ((ctx.addBlock location argTypes []).1.args ⟨ctx.blocks.size⟩).length = argTypes.length := by
  rw [args_eq_readBlock, readBlock_addBlock, if_pos rfl]
  simp [nextValues]

theorem runs_of_onContext {α : Type} (step : StateM Context α) (s : Builder) :
    Runs (onContext step) s (step.run s.context).1
      { s with context := (step.run s.context).2 } := runs_onContext.2 ⟨rfl, rfl⟩

mutual

/-- A term with a normal form can be built. -/
theorem exists_runs_of_normal : ∀ (term M : OpTerm) (s : Builder) (st st' : Numbering),
    SameNames s st → Normal.op term st = some (M, st') →
    ∃ o s', Runs (op term) s o s' ∧ SameNames s' st'
  | .mk h terms, M, s, st, st', hs, hnormal => by
    obtain ⟨hlength, ns, Ms, st₁, hns, hregions, -, rfl⟩ := Normal.op_eq_some.1 hnormal
    obtain ⟨operands, hoperands⟩ := hs.resolve h.span.start hns
    let ctx₁ := ((headAttributes h).run s.context).2
    let ctx₂ := ((types h.types).run ctx₁).2
    obtain ⟨rs, s₂, hrs, hs₂⟩ := exists_regions_of_normal ⟨s.path, h.span⟩ terms Ms
      { s with context := ctx₂ } (st.skip h.results.length) st₁ hs hregions
    let blueprint : Blueprint := ⟨⟨s.path, h.span⟩, h.kind, operands, ((types h.types).run ctx₁).1,
      ((headAttributes h).run s.context).1, rs⟩
    refine ⟨⟨s₂.context.ops.size⟩, { s₂ with
      context := (s₂.context.addOp blueprint).1
      names := (h.results.zip ((s₂.context.addOp blueprint).1.results ⟨s₂.context.ops.size⟩)).reverse
        ++ s₂.names }, ?_, ?_⟩
    · rw [op, if_neg (not_ne_iff.2 hlength)]
      refine runs_bind.2 ⟨s, s, runs_get.2 ⟨rfl, rfl⟩, ?_⟩
      refine runs_bind.2 ⟨operands, s, hoperands, ?_⟩
      refine runs_bind.2 ⟨_, _, runs_of_onContext (headAttributes h) s, ?_⟩
      refine runs_bind.2 ⟨_, _, runs_of_onContext (types h.types) _, ?_⟩
      refine runs_bind.2 ⟨rs, s₂, hrs, ?_⟩
      refine runs_bind.2 ⟨_, _, runs_of_onContext _ s₂, ?_⟩
      refine runs_bind.2 ⟨_, _, runs_get.2 ⟨rfl, rfl⟩, ?_⟩
      exact runs_bind.2 ⟨(), _, runs_bind_names.2 rfl, runs_pure.2 ⟨rfl, rfl⟩⟩
    · refine hs₂.bind _ ?_ (Numbering.length_fresh _) _
      rw [length_results_addOp, hlength]
      exact length_types h.types ctx₁
termination_by structural term => term

theorem exists_regions_of_normal : ∀ (location : Location) (terms Ms : List RegionTerm)
    (s : Builder) (st st' : Numbering), SameNames s st →
    Normal.regions terms st = some (Ms, st') →
    ∃ rs s', Runs (regions location terms) s rs s' ∧ SameNames s' st'
  | location, [], Ms, s, st, st', hs, hnormal => by
    obtain ⟨-, rfl⟩ := Normal.regions_nil_eq_some.1 hnormal
    refine ⟨[], s, ?_, hs⟩
    rw [regions]
    exact runs_pure.2 ⟨rfl, rfl⟩
  | location, .mk terms :: rest, Ms, s, st, st', hs, hnormal => by
    obtain ⟨Bs, st₁, Rs, hblocks, hrest, -⟩ := Normal.regions_cons_eq_some.1 hnormal
    obtain ⟨bs, s₁, hbs, hs₁⟩ := exists_blocks_of_normal location _ terms Bs s st st₁ hs hblocks
    obtain ⟨rs, s', hrs, hs'⟩ := exists_regions_of_normal location rest Rs
      { s₁ with context := (s₁.context.addRegion location bs).1 } st₁ st' hs₁ hrest
    refine ⟨⟨s₁.context.regions.size⟩ :: rs, s', ?_, hs'⟩
    rw [regions]
    refine runs_bind.2 ⟨bs, s₁, hbs, ?_⟩
    refine runs_bind.2 ⟨_, _, runs_of_onContext _ s₁, ?_⟩
    exact runs_bind.2 ⟨rs, s', hrs, runs_pure.2 ⟨rfl, rfl⟩⟩
termination_by structural _ terms => terms

theorem exists_blocks_of_normal : ∀ (location : Location) (bare : Bool) (terms Ms : List BlockTerm)
    (s : Builder) (st st' : Numbering), SameNames s st →
    Normal.blocks bare terms st = some (Ms, st') →
    ∃ bs s', Runs (blocks location terms) s bs s' ∧ SameNames s' st'
  | location, bare, [], Ms, s, st, st', hs, hnormal => by
    obtain ⟨-, rfl⟩ := Normal.blocks_nil_eq_some.1 hnormal
    refine ⟨[], s, ?_, hs⟩
    rw [blocks]
    exact runs_pure.2 ⟨rfl, rfl⟩
  | location, bare, .mk label terms :: rest, Ms, s, st, st', hs, hnormal => by
    obtain ⟨Os, st₁, Bs, hops, hrest, -⟩ := Normal.blocks_cons_eq_some.1 hnormal
    let args := (label.map Label.args).getD []
    let ctx₁ := ((types (args.map Prod.snd)).run s.context).2
    let argTypes := ((types (args.map Prod.snd)).run s.context).1
    let s₁ : Builder := { s with
      context := (ctx₁.addBlock location argTypes []).1
      names := ((args.map Prod.fst).zip
        ((ctx₁.addBlock location argTypes []).1.args ⟨ctx₁.blocks.size⟩)).reverse ++ s.names }
    have hs₁ : SameNames s₁ (Normal.enter bare args st) := by
      have hbind : SameNames s₁ ((st.skip args.length).bind (args.map Prod.fst)
          (st.fresh args.length)) := by
        refine SameNames.bind (st.skip args.length) hs ?_ (by simp) _
        rw [length_args_addBlock, length_types, List.length_map, List.length_map]
      cases bare with
      | false => exact hbind
      | true => exact hbind
    obtain ⟨s₂, hrun₂, hs₂⟩ := exists_ops_of_normal ⟨ctx₁.blocks.size⟩ terms Os s₁ _ st₁ hs₁ hops
    obtain ⟨bs, s', hbs, hs'⟩ := exists_blocks_of_normal location bare rest Bs s₂ st₁ st' hs₂ hrest
    refine ⟨⟨ctx₁.blocks.size⟩ :: bs, s', ?_, hs'⟩
    rw [blocks]
    refine runs_bind.2 ⟨_, _, runs_of_onContext _ s, ?_⟩
    refine runs_bind.2 ⟨_, _, runs_of_onContext _ _, ?_⟩
    refine runs_bind.2 ⟨_, _, runs_get.2 ⟨rfl, rfl⟩, ?_⟩
    refine runs_bind.2 ⟨(), s₁, runs_bind_names.2 rfl, ?_⟩
    refine runs_bind.2 ⟨(), s₂, hrun₂, ?_⟩
    exact runs_bind.2 ⟨bs, s', hbs, runs_pure.2 ⟨rfl, rfl⟩⟩
termination_by structural _ _ terms => terms

theorem exists_ops_of_normal : ∀ (b : BlockRef) (terms Ms : List OpTerm) (s : Builder)
    (st st' : Numbering), SameNames s st → Normal.ops terms st = some (Ms, st') →
    ∃ s', Runs (ops b terms) s () s' ∧ SameNames s' st'
  | b, [], Ms, s, st, st', hs, hnormal => by
    obtain ⟨-, rfl⟩ := Normal.ops_nil_eq_some.1 hnormal
    refine ⟨s, ?_, hs⟩
    rw [ops]
    exact runs_pure.2 ⟨rfl, rfl⟩
  | b, term :: rest, Ms, s, st, st', hs, hnormal => by
    obtain ⟨M, st₁, Os, hop, hrest, -⟩ := Normal.ops_cons_eq_some.1 hnormal
    obtain ⟨o, s₁, ho, hs₁⟩ := exists_runs_of_normal term M s st st₁ hs hop
    obtain ⟨s', hrun, hs'⟩ := exists_ops_of_normal b rest Os
      { s₁ with context := s₁.context.append b o } st₁ st' hs₁ hrest
    refine ⟨s', ?_, hs'⟩
    rw [ops]
    refine runs_bind.2 ⟨o, s₁, ho, ?_⟩
    exact runs_bind.2 ⟨(), _, runs_of_onContext _ s₁, hrun⟩
termination_by structural _ terms => terms

end

end Offload.Build
