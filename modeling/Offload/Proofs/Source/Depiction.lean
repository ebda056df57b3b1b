import Offload.Proofs.Source.Numbering

/-!
# What is built is what is quoted

Quoting an operation that was built from a term gives the normal form of the term
(`op_quoted`), and so does quoting it at any later time, as long as what came in with
it stays as it is (`Later`). The proof goes along with building, one case for each of
its steps.

The normal form is more than a text: with a number for every value, it *depicts* the
operation, part by part (`Depicts`). Operations that the same term depicts differ in
nothing but the handles of their values.
-/

namespace Offload

open Context Quote

/-! ## Depiction -/

/-- A name is the number of a value. -/
def Names (number : ValueRef → Option Nat) (name : String) (v : ValueRef) : Prop :=
  ∃ n, number v = some n ∧ name = toString n

namespace Depicts

variable (ctx : Context) (number : ValueRef → Option Nat)

/-- What a line says about an operation. -/
structure Line (head : Head) (row : Operation) : Prop where
  kind : row.kind = head.kind
  results : List.Forall₂ (Names number) head.results row.results
  operands : List.Forall₂ (Names number) head.operands row.operands
  attributes : Quote.entries ctx (Quote.type ctx) row.attributes.entries =
    .ok (Normal.headEntries head)
  types : List.Forall₂ (fun t term => Quote.type ctx t = .ok term) row.resultTypes head.types

/-- What is said about an argument of a block. -/
def Argument (arg : String × TypeTerm) (v : ValueRef) : Prop :=
  Names number arg.1 v ∧ ∃ row, ctx.value v = .ok row ∧ Quote.type ctx row.type = .ok arg.2

mutual

/-- What a term says about an operation. -/
def op : OpTerm → OpRef → Prop
  | .mk head terms, o => ∃ row, ctx.op o = .ok row ∧ Line ctx number head row ∧
    regions terms row.regions

def regions : List RegionTerm → List RegionRef → Prop
  | [], rs => rs = []
  | .mk terms :: rest, rs => ∃ r rs' row, rs = r :: rs' ∧ ctx.region r = .ok row ∧
    blocks terms row.blocks ∧ regions rest rs'

def blocks : List BlockTerm → List BlockRef → Prop
  | [], bs => bs = []
  | .mk l terms :: rest, bs => ∃ b bs' row, bs = b :: bs' ∧ ctx.block b = .ok row ∧
    List.Forall₂ (Argument ctx number) (BlockTerm.mk l terms).args row.args ∧
    ops terms row.ops ∧ blocks rest bs'

def ops : List OpTerm → List OpRef → Prop
  | [], os => os = []
  | term :: rest, os => ∃ o os', os = o :: os' ∧ op term o ∧ ops rest os'

end

end Depicts

/-! ## Later contexts -/

/-- All that came in after `old` stays as it is, up to owners. -/
structure Later (old ctx ctx' : Context) : Prop where
  kept : Kept old ctx ctx'
  value : ∀ v row, ctx.value v = .ok row → ctx'.value v = .ok row
  remembers : ctx.Remembers ctx'

namespace Later

variable {old old' ctx ctx₁ ctx₂ ctx' : Context}

theorem trans (h₁ : Later old ctx ctx₁) (h₂ : Later old ctx₁ ctx₂) : Later old ctx ctx₂ :=
  ⟨h₁.kept.trans h₂.kept, fun v row h => h₂.value v row (h₁.value v row h),
    h₁.remembers.trans h₂.remembers⟩

theorem of_extends (h : ctx.Extends ctx') (hr : ctx.Remembers ctx') : Later old ctx ctx' :=
  ⟨h.kept old, h.value, hr⟩

theorem refl (ctx : Context) : Later old ctx ctx := of_extends (.refl ctx) (.refl ctx)

theorem mono (h : Later old ctx ctx') (hop : ∀ o, old.HasOp o → old'.HasOp o)
    (hblock : ∀ b, old.HasBlock b → old'.HasBlock b)
    (hregion : ∀ r, old.HasRegion r → old'.HasRegion r) : Later old' ctx ctx' :=
  ⟨h.kept.mono hop hblock hregion, h.value, h.remembers⟩

theorem extend (h : Later old ctx ctx') (hold : old.Extends old') : Later old' ctx ctx' :=
  h.mono (fun _ => hold.hasOp) (fun _ => hold.hasBlock) fun _ => hold.hasRegion

theorem size_values_le (h : Later old ctx ctx') : ctx.values.size ≤ ctx'.values.size := by
  by_contra hlt
  have hrow := Array.getElem?_eq_getElem (Nat.lt_of_not_le hlt)
  have hrow' := value_eq_ok.1 (h.value ⟨ctx'.values.size⟩ _ (value_eq_ok.2 hrow))
  exact Nat.lt_irrefl _ (Array.getElem?_eq_some_iff.1 hrow').1

/-- An operation that came in is still there. -/
theorem hasOp (h : Later old ctx ctx') {o : OpRef} (ho : ctx.HasOp o) (hnew : ¬old.HasOp o) :
    ctx'.HasOp o := by
  obtain ⟨row, hrow⟩ := hasOp_iff.1 ho
  obtain ⟨_, hrow'⟩ := h.kept.op o row hrow hnew
  exact hasOp_iff.2 ⟨_, hrow'⟩

theorem addOp (blueprint : Blueprint) : Later old ctx (ctx.addOp blueprint).1 where
  kept := kept_addOp
  value v row h := value_eq_ok.2 (value_of_append h
    ⟨_, by simp only [Context.addOp, foldl_modifyRegion, addValues]; rfl⟩)
  remembers := by
    simp only [Context.addOp, foldl_modifyRegion, addValues]
    exact ⟨fun _ _ h => h, fun _ _ h => h⟩

theorem addRegion (location : Location) (blocks : List BlockRef) :
    Later old ctx (ctx.addRegion location blocks).1 where
  kept := kept_addRegion
  value v row h := by
    simpa only [Context.addRegion, foldl_modifyBlock, Context.value] using h
  remembers := by
    simp only [Context.addRegion, foldl_modifyBlock]
    exact ⟨fun _ _ h => h, fun _ _ h => h⟩

theorem append {b : BlockRef} {o : OpRef} (hb : old.HasBlock b) :
    Later old ctx (ctx.append b o) where
  kept := kept_append hb
  value _ _ h := h
  remembers := ⟨fun _ _ h => h, fun _ _ h => h⟩

end Later

namespace Build

/-! ## What building adds -/

variable {ctx ctx' : Context}

theorem enriched_addOp (blueprint : Blueprint) : Enriched ctx (ctx.addOp blueprint).1 :=
  .of_eq (by simp only [addOp, foldl_modifyRegion, addValues])
    (by simp only [addOp, foldl_modifyRegion, addValues])

theorem enriched_addRegion (location : Location) (blocks : List BlockRef) :
    Enriched ctx (ctx.addRegion location blocks).1 :=
  .of_eq (by simp only [addRegion, foldl_modifyBlock]) (by simp only [addRegion, foldl_modifyBlock])

theorem enriched_addBlock (location : Location) (argTypes : List TypeRef) :
    Enriched ctx (ctx.addBlock location argTypes []).1 :=
  .of_eq (by simp only [addBlock, foldl_modifyOp, addValues])
    (by simp only [addBlock, foldl_modifyOp, addValues])

theorem enriched_append (b : BlockRef) (o : OpRef) : Enriched ctx (ctx.append b o) :=
  .of_eq rfl rfl

theorem headAttributes_spec {head : Head} {attributes : Attributes} (hctx : ctx.Founded)
    (hrun : (headAttributes head).run ctx = (attributes, ctx')) :
    Enriched ctx ctx' ∧ quotedEntries ctx' attributes.entries = .ok (Normal.headEntries head) := by
  have h₁ := enriched_symbols ctx (headSymbols head)
  rw [Normal.headEntries]
  cases hsymbol : head.symbol with
  | none =>
    obtain ⟨h₂, hentries⟩ := attributes_spec head.entries .empty [] _ (h₁.founded hctx) rfl
    rw [headAttributes, hsymbol] at hrun
    change (Build.attributes head.entries _).run ((symbols (headSymbols head)).run ctx).2 = _ at hrun
    rw [hrun] at h₂ hentries
    exact ⟨h₁.trans h₂, hentries⟩
  | some name =>
    obtain ⟨h₂, hentries⟩ := attributes_spec head.entries
      (Attributes.empty.set "sym_name" (.atom (.symbol name))) [.mk "sym_name" (.symbol name)] _
      (h₁.founded hctx) rfl
    rw [headAttributes, hsymbol] at hrun
    change (Build.attributes head.entries _).run ((symbols (headSymbols head)).run ctx).2 = _ at hrun
    rw [hrun] at h₂ hentries
    exact ⟨h₁.trans h₂, hentries⟩

theorem types_say {ts : List TypeTerm} {refs : List TypeRef} (hctx : ctx.Founded)
    (hrun : (types ts).run ctx = (refs, ctx')) :
    Enriched ctx ctx' ∧ List.Forall₂ (Says ctx') refs (Normal.types ts) := by
  have h := types_spec ts ctx hctx
  rwa [hrun] at h

theorem stepwise_enriched : Stepwise fun ctx ctx' => ctx.Founded → Enriched ctx ctx' where
  refl ctx _ := .refl ctx
  trans h₁ h₂ hctx := (h₁ hctx).trans (h₂ ((h₁ hctx).founded hctx))
  headAttributes _ _ hctx := (headAttributes_spec hctx rfl).1
  types terms ctx hctx := (types_spec terms ctx hctx).1
  addOp blueprint _ _ := enriched_addOp blueprint
  addBlock location argTypes _ _ := enriched_addBlock location argTypes
  addRegion location blocks _ _ := enriched_addRegion location blocks
  append b o _ _ := enriched_append b o

theorem later_of_built (old : Context) (h : Built ctx ctx') (he : Enriched ctx ctx') :
    Later old ctx ctx' := .of_extends h.extends he.remembers

/-- Operations are built into a block that was there before, and all others stay as they
    are. -/
theorem ops_later {old : Context} (b : BlockRef) (hb : old.HasBlock b) :
    ∀ (terms : List OpTerm) (s : Builder) (u : Unit) (s' : Builder), s.context.Sound →
      s.context.Founded → s.context.HasBlock b → s.context.regionOf b = none →
      Runs (ops b terms) s u s' → Later old s.context s'.context := by
  intro terms
  induction terms with
  | nil =>
    intro s u s' _ _ _ _ hrun
    rw [ops] at hrun
    obtain ⟨-, rfl⟩ := runs_pure.1 hrun
    exact .refl _
  | cons term rest ih =>
    intro s u s' hs hfounded hhas hfree hrun
    obtain ⟨o, s₁, ho, hrest⟩ := ops_cons_runs hrun
    obtain ⟨h₁, hmade⟩ := op_spec term s o s₁ hs ho
    have he := stepwise_enriched.op term ho hfounded
    have he₂ := he.trans (enriched_append b o)
    have h₂ := Filled.append h₁ hmade hhas hfree
    exact ((later_of_built _ h₁ he).trans (.append hb)).trans
      (ih { s₁ with context := s₁.context.append b o } () s' h₂.sound (he₂.founded hfounded)
        h₂.hasBlock h₂.free hrest)

end Build

/-! ## Quoting what was built -/

namespace Quote

/-- The term of a block, given those of operations. -/
def block (ctx : Context) (bare : Bool) (op : OpRef → QuoteM OpTerm) (b : BlockRef) :
    QuoteM BlockTerm := do
  let label ← if bare then pure none else some <$> label ctx b
  return .mk label (← (← ctx.block b).ops.mapM op)

theorem block_eq (ctx : Context) (bare : Bool) (op : OpRef → QuoteM OpTerm) (b : BlockRef) :
    block ctx bare op b = (if bare then pure none else some <$> label ctx b) >>= fun label => do
      return .mk label (← (← ctx.block b).ops.mapM op) := by
  cases bare <;> rfl

theorem isBare_eq (ctx : Context) (bs : List BlockRef) :
    isBare ctx bs = decide (bs.map (fun b => (ctx.args b).length) = [0]) := by
  rcases bs with _ | ⟨b, _ | ⟨c, bs⟩⟩
  · rfl
  · cases h : ctx.args b <;> simp [isBare, h]
  · simp [isBare]

variable {ctx : Context} {ν ν' : Naming}

theorem yields_region {op : OpRef → QuoteM OpTerm} {r : RegionRef} {row : Region}
    {terms : List BlockTerm} (hr : ctx.region r = .ok row)
    (hblocks : Yields (row.blocks.mapM (block ctx (isBare ctx row.blocks) op)) ν terms ν') :
    Yields (region ctx op r) ν (.mk terms) ν' :=
  .bind (.lift hr) (.bind hblocks (.pure _))

theorem yields_label {b : BlockRef} {vs : List ValueRef} {terms : List TypeTerm}
    (hargs : ctx.args b = vs) (hterms : List.Forall₂ (fun v t => ∃ row, ctx.value v = .ok row ∧
      Quote.type ctx row.type = .ok t) vs terms) :
    Yields (label ctx b) ν ⟨s!"bb{ν.nextBlock}",
      ((List.range' ν.nextValue vs.length).map toString).zip terms⟩ (ν.label.push vs) := by
  rw [label, hargs]
  clear hargs
  have hnext : Yields nextLabel ν s!"bb{ν.nextBlock}" ν.label := rfl
  refine hnext.bind (.bind ?_ (.pure _))
  change Yields _ ν.label (((List.range' ν.label.nextValue vs.length).map toString).zip terms) _
  generalize ν.label = ν
  induction hterms generalizing ν with
  | nil => exact .mapM_nil _
  | cons hv _ ih =>
    obtain ⟨row, hrow, ht⟩ := hv
    rw [List.length_cons, List.range'_succ]
    exact .mapM_cons (.bind (yields_define _) (.bind (.lift hrow) (.bind (.lift ht) (.pure _)))) (ih _)

/-! ### The line of an operation -/

section

variable {f : TypeRef → Except Fault TypeTerm} {l : List (String × Attribute)} {es : List Entry}

theorem symbolIn_cons {a : Attribute} {term : AttributeTerm} (ha : value ctx f a = .ok term)
    (key : String) (rest : List Entry) : Normal.symbolIn (.mk key term :: rest) =
      if key = "sym_name" then a.asSymbol? else Normal.symbolIn rest := by
  rcases a with ⟨_ | _ | _ | _ | _ | _ | t | _ | loc⟩ | items
  case atom.type =>
    obtain ⟨t, -, h⟩ := Outcome.bind_eq_ok.1 ha
    obtain rfl := Outcome.pure_eq_ok.1 h
    rfl
  case atom.location =>
    obtain ⟨path, -, h⟩ := Outcome.bind_eq_ok.1 ha
    obtain rfl := Outcome.pure_eq_ok.1 h
    rfl
  case list =>
    obtain ⟨terms, -, h⟩ := Outcome.bind_eq_ok.1 ha
    obtain rfl := Outcome.pure_eq_ok.1 h
    rfl
  all_goals
    cases ha
    rfl

/-- The symbol after the name is the one among the attributes. -/
theorem symbol_of_entries (h : entries ctx f l = .ok es) :
    (l.lookup "sym_name").bind Attribute.asSymbol? = Normal.symbolIn es := by
  have hentries := Outcome.mapM_eq_ok.1 h
  clear h
  induction hentries with
  | nil => rfl
  | @cons p e l es hp _ ih =>
    obtain ⟨key, a⟩ := p
    obtain ⟨term, ha, he⟩ := Outcome.bind_eq_ok.1 hp
    obtain rfl := Outcome.pure_eq_ok.1 he
    rw [symbolIn_cons ha, List.lookup_cons, ← ih]
    split
    · rename_i heq
      rw [if_pos (eq_of_beq heq).symm]
      rfl
    · rename_i hne
      rw [if_neg (Ne.symm (ne_of_beq_false hne))]

/-- What is shown in braces are the terms of the attributes that are. -/
theorem entries_shown (h : entries ctx f l = .ok es) (q : String → Bool) :
    entries ctx f (l.filter fun p => q p.1) = .ok (es.filter fun e => q e.key) := by
  rw [entries, Outcome.mapM_eq_ok] at h ⊢
  induction h with
  | nil => exact .nil
  | @cons p e l es hp _ ih =>
    obtain ⟨key, a⟩ := p
    obtain ⟨term, ha, he⟩ := Outcome.bind_eq_ok.1 hp
    obtain rfl := Outcome.pure_eq_ok.1 he
    rw [List.filter_cons, List.filter_cons, Entry.key]
    by_cases hq : q key = true
    · rw [if_pos hq, if_pos hq]
      exact .cons hp ih
    · rw [if_neg hq, if_neg hq]
      exact ih

end

/-- The line of an operation whose attributes and types can be spelled out. -/
theorem yields_head {o : OpRef} {row : Operation} {h : Head} {operands : List Nat}
    (hrow : ctx.op o = .ok row) (hkind : row.kind = h.kind)
    (hoperands : List.Forall₂ (fun v n => (ν.push row.results).names.lookup v = some n)
      row.operands operands)
    (hattributes : entries ctx (Quote.type ctx) row.attributes.entries =
      .ok (Normal.headEntries h))
    (htypes : List.Forall₂ (fun t term => Quote.type ctx t = .ok term) row.resultTypes
      (Normal.types h.types)) :
    Yields (head ctx o) ν { Normal.head (List.range' ν.nextValue row.results.length) operands h with
      span := row.location.span } (ν.push row.results) := by
  have hresults : ctx.results o = row.results := by
    rw [results_eq_readOp, readOp_of_op hrow]
  rw [head_eq, hresults]
  refine .bind (yields_mapM_define row.results) (.bind (.lift hrow) ?_)
  dsimp only
  have hsymbol : (row.attributes.get? "sym_name").bind Attribute.asSymbol? =
      Normal.symbolIn (Normal.headEntries h) := symbol_of_entries hattributes
  rw [hsymbol]
  have hshown := entries_shown hattributes fun key =>
    (Normal.symbolIn (Normal.headEntries h)).isNone || key ≠ "sym_name"
  refine .bind (yields_mapM_nameOf hoperands) (.bind (.lift hshown)
    (.bind (.mapM_lift htypes) ?_))
  rw [hkind]
  exact .pure _

end Quote

namespace Build

variable {ctx ctx' : Context}

/-! ### Steps -/

theorem forall₂_of_mapM_resolve {place : Nat} {names : List String} {s s' : Builder}
    {vs : List ValueRef} (hrun : Runs (names.mapM (resolve place)) s vs s') :
    List.Forall₂ (fun name v => s.names.lookup name = some v) names vs := by
  induction names generalizing vs s' with
  | nil =>
    rw [List.mapM_nil] at hrun
    obtain ⟨rfl, -⟩ := runs_pure.1 hrun
    exact .nil
  | cons name names ih =>
    rw [List.mapM_cons] at hrun
    obtain ⟨v, s₁, hv, hrun⟩ := runs_bind.1 hrun
    obtain ⟨vs, s₂, hvs, hrun⟩ := runs_bind.1 hrun
    obtain ⟨rfl, -⟩ := runs_pure.1 hrun
    obtain rfl := context_of_resolve hv
    refine .cons ?_ (ih hvs)
    rw [resolve] at hv
    obtain ⟨t, _, hget, hlookup⟩ := runs_bind.1 hv
    obtain ⟨rfl, rfl⟩ := runs_get.1 hget
    split at hlookup
    · rename_i w hw
      obtain ⟨rfl, -⟩ := runs_pure.1 hlookup
      exact hw
    · exact absurd hlookup not_runs_throw

theorem op_addOp (blueprint : Blueprint) :
    (ctx.addOp blueprint).1.op ⟨ctx.ops.size⟩ = .ok (ctx.freshRow blueprint) := by
  rw [op_iff_readOp, readOp_addOp, if_pos rfl]

theorem block_addBlock (ctx : Context) (location : Location) (argTypes : List TypeRef) :
    (ctx.addBlock location argTypes []).1.block ⟨ctx.blocks.size⟩ =
      .ok ⟨location, argTypes, ctx.nextValues argTypes.length, [], none⟩ := by
  rw [block_iff_readBlock, readBlock_addBlock, if_pos rfl]

/-- The arguments of a new block have its types. -/
theorem value_addBlock (location : Location) {argTypes : List TypeRef} {terms : List TypeTerm}
    {R : TypeRef → TypeTerm → Prop} (h : List.Forall₂ R argTypes terms) :
    List.Forall₂ (fun v t => ∃ row, (ctx.addBlock location argTypes []).1.value v = .ok row ∧
      R row.type t) (ctx.nextValues argTypes.length) terms := by
  obtain ⟨hlength, hget⟩ := List.forall₂_iff_get.1 h
  refine List.forall₂_iff_get.2 ⟨by simpa [nextValues] using hlength, fun i hi hi' => ?_⟩
  have hi₀ : i < argTypes.length := hlength ▸ hi'
  refine ⟨⟨.argument ⟨ctx.blocks.size⟩ i, argTypes[i]⟩, value_eq_ok.2 ?_, hget i hi₀ hi'⟩
  simp [addBlock, addValues, nextValues, hi₀]

theorem region_addRegion (location : Location) (blocks : List BlockRef) :
    (ctx.addRegion location blocks).1.region ⟨ctx.regions.size⟩ = .ok ⟨location, blocks, none⟩ := by
  rw [region_iff_readRegion, readRegion_addRegion, if_pos rfl]

theorem size_addRegion (ctx : Context) (location : Location) (blocks : List BlockRef) :
    (ctx.addRegion location blocks).1.ops.size = ctx.ops.size ∧
      (ctx.addRegion location blocks).1.values.size = ctx.values.size := by
  simp [addRegion, foldl_modifyBlock]

theorem size_ops_le (h : ctx.Extends ctx') : ctx.ops.size ≤ ctx'.ops.size := by
  by_contra hlt
  exact Nat.lt_irrefl _ (h.hasOp (o := ⟨ctx'.ops.size⟩) (Nat.lt_of_not_le hlt))

theorem nodup_nextValues (ctx : Context) (count : Nat) : (ctx.nextValues count).Nodup := by
  refine List.nodup_range.map fun i j hij => ?_
  simpa using hij

theorem length_nextValues (count : Nat) : (ctx.nextValues count).length = count := by
  simp [nextValues]

/-- The numbers of arguments, before the operations of their block. -/
theorem aligned_enter (ctx : Context) {s : Builder} {st : Numbering} {ν : Naming}
    (h : Aligned s st ν) (bare : Bool)
    {args : List (String × TypeTerm)} {vs : List ValueRef} (hlength : vs.length = args.length)
    (hnodup : vs.Nodup) (hle : s.context.values.size ≤ ctx.values.size)
    (hvs : ∀ v ∈ vs, s.context.values.size ≤ v.index ∧ v.index < ctx.values.size) :
    Aligned { s with context := ctx, names := ((args.map Prod.fst).zip vs).reverse ++ s.names }
      (Normal.enter bare args st) ((if bare then ν else ν.label).push vs) := by
  have hpush {st : Numbering} {ν : Naming} (h : Aligned s st ν) :
      Aligned { s with context := ctx, names := ((args.map Prod.fst).zip vs).reverse ++ s.names }
        ((st.skip args.length).bind (args.map Prod.fst) (st.fresh args.length)) (ν.push vs) := by
    rw [Numbering.fresh, ← hlength, ← h.nextValue]
    exact ((h.push fun v hv => (hvs v hv).1).grow hle).bind (Naming.lookup_push_self hnodup)
      fun v hv => (hvs v hv).2
  cases bare with
  | true => exact hpush h
  | false => exact hpush h.label

/-- The label of a block in step with the normal form. -/
theorem yields_block {s : Builder} {st : Numbering} {ν ν' : Naming} (h : Aligned s st ν)
    {bare : Bool} {args : List (String × TypeTerm)} (hbare : bare = true → args = []) {b : BlockRef}
    {row : Block} (hb : ctx.block b = .ok row)
    (hvs : List.Forall₂ (fun v t => ∃ row, ctx.value v = .ok row ∧ Quote.type ctx row.type = .ok t)
      row.args (Normal.types (args.map Prod.snd)))
    {op : OpRef → QuoteM OpTerm} {Ns : List OpTerm}
    (hops : Yields (row.ops.mapM op) ((if bare then ν else ν.label).push row.args) Ns ν') :
    Yields (Quote.block ctx bare op b) ν (.mk (Normal.label bare args st) Ns) ν' := by
  have hlength : row.args.length = args.length := by
    rw [hvs.length_eq, Normal.types_eq_map, List.length_map, List.length_map]
  have hlabel : Yields (if bare then Pure.pure none else some <$> label ctx b) ν
      (Normal.label bare args st) ((if bare then ν else ν.label).push row.args) := by
    cases bare with
    | true =>
      have hnil : row.args = [] := List.length_eq_zero_iff.1 (by rw [hlength, hbare rfl]; rfl)
      rw [hnil]
      exact .pure _
    | false =>
      have hargs : ctx.args b = row.args := by rw [args_eq_readBlock, readBlock_of_block hb]
      have hlabel := (yields_label (ν := ν) hargs hvs).map some
      rwa [h.nextBlock, h.nextValue, hlength] at hlabel
  rw [block_eq]
  exact hlabel.bind (.bind (.lift hb) (.bind hops (.pure _)))

theorem forall₂_names {number : ValueRef → Option Nat} {vs : List ValueRef} {ns : List Nat}
    (hns : List.Forall₂ (fun v n => number v = some n) vs ns) :
    List.Forall₂ (Names number) (ns.map toString) vs := by
  induction hns with
  | nil => exact .nil
  | @cons v n vs ns hn _ ih => exact .cons ⟨n, hn, rfl⟩ ih

theorem forall₂_argument {number : ValueRef → Option Nat} {vs : List ValueRef} {ns : List Nat}
    {terms : List TypeTerm} (hns : List.Forall₂ (fun v n => number v = some n) vs ns)
    (hterms : List.Forall₂ (fun v t => ∃ row, ctx.value v = .ok row ∧
      Quote.type ctx row.type = .ok t) vs terms) :
    List.Forall₂ (Depicts.Argument ctx number) ((ns.map toString).zip terms) vs := by
  induction hns generalizing terms with
  | nil => exact .nil
  | @cons v n vs ns hn _ ih =>
    cases hterms with
    | cons ht hterms => exact .cons ⟨⟨n, hn, rfl⟩, ht⟩ (ih hterms)

/-! ### Building and quoting in step -/

/-- Building is about to go from one state to another, after which `ctx` is a later
    context; quoting and the normal form have got as far. -/
structure Ready (s s' : Builder) (ctx : Context) (st : Numbering) (ν : Naming) : Prop where
  sound : s.context.Sound
  founded : s.context.Founded
  later : Later s.context s'.context ctx
  aligned : Aligned s st ν
  unnamed : Unnamed s.context.values.size s'.context.values.size ν

/-- Quoting gives a term, up to places, that depicts what was built. -/
def Told {α : Type} (s s' : Builder) (st' : Numbering) (ν : Naming) (x : QuoteM α)
    (term : α → Prop) (depicts : (ValueRef → Option Nat) → Prop) : Prop :=
  ∃ N ν', Yields x ν N ν' ∧ term N ∧ Aligned s' st' ν' ∧
    Untouched s.context.values.size s'.context.values.size ν ν' ∧
    ∀ number, ν'.Agrees number → depicts number

section

variable {s s₁ s' : Builder} {st st₁ : Numbering} {ν ν₁ : Naming}

/-- A first part of what is built. -/
theorem Ready.first (h : Ready s s' ctx st ν) (h₁ : Later s.context s₁.context s'.context) :
    Ready s s₁ ctx st ν where
  sound := h.sound
  founded := h.founded
  later := h₁.trans h.later
  aligned := h.aligned
  unnamed v hv hv' := h.unnamed v hv (hv'.trans_le h₁.size_values_le)

/-- The rest of what is built, after a first part. -/
theorem Ready.rest (h : Ready s s' ctx st ν) (h₁ : Built s.context s₁.context)
    (he : Enriched s.context s₁.context) (ha : Aligned s₁ st₁ ν₁)
    (hν : Untouched s.context.values.size s₁.context.values.size ν ν₁) : Ready s₁ s' ctx st₁ ν₁ where
  sound := h₁.sound
  founded := he.founded h.founded
  later := h.later.extend h₁.extends
  aligned := ha
  unnamed := h.unnamed.after hν (later_of_built .empty h₁ he).size_values_le

end

mutual

theorem op_quoted : ∀ (term : OpTerm) (s : Builder) (o : OpRef) (s' : Builder) (ctx : Context)
    (st : Numbering) (ν : Naming) (n : Nat), Ready s s' ctx st ν → Runs (op term) s o s' →
    o.index < n → ∃ M st', Normal.op term st = some (M, st') ∧
      Told s s' st' ν (Quote.opWithin ctx n o) (Unplaced.op · = M)
        fun number => Depicts.op ctx number M o
  | .mk h terms, s, o, s', ctx, st, ν, n, hready, hrun, hn => by
    obtain ⟨hlength, operands, attrs, ctx₁, resultTypes, ctx₂, rs, s₂, blueprint, hoperands, hattrs,
      htypes, hregions, hblueprint, rfl, rfl⟩ := op_steps hrun
    obtain ⟨he₁, hattrs'⟩ := headAttributes_spec hready.founded hattrs
    obtain ⟨he₂, htypes'⟩ := types_say (he₁.founded hready.founded) htypes
    have hi₁ : Interned s.context ((headAttributes h).run s.context).2 :=
      interned_headAttributes h s.context
    rw [hattrs] at hi₁
    have hi₂ : Interned ctx₁ ctx₂ := by
      have h := interned_types h.types ctx₁
      rwa [htypes] at h
    have h₁ := Built.interned hready.sound (hi₁.trans hi₂)
    obtain ⟨h₂, hmade, hnodup⟩ := regions_spec _ terms _ rs s₂ h₁.sound hregions
    have he := he₁.trans he₂
    have he₂' := stepwise_enriched.regions terms hregions (he.founded hready.founded)
    have hlater₂ : Later s.context s₂.context (s₂.context.addOp blueprint).1 := .addOp blueprint
    have hlater : Later s.context s₂.context ctx := hlater₂.trans hready.later
    -- the operation is new, so that its row is there from now on
    have hnew : ¬s.context.HasOp ⟨s₂.context.ops.size⟩ := fun ho =>
      not_hasOp_size ((h₁.trans h₂).extends.hasOp ho)
    obtain ⟨vs, hvs⟩ : ∃ vs, vs = s₂.context.nextValues blueprint.resultTypes.length := ⟨_, rfl⟩
    obtain ⟨row, hrow, hrowKind, hrowResults, hrowOperands, hrowAttributes, hrowTypes, hrowRegions⟩ :
        ∃ row, ctx.op ⟨s₂.context.ops.size⟩ = .ok row ∧ row.kind = h.kind ∧ row.results = vs ∧
          row.operands = operands ∧ row.attributes = attrs ∧ row.resultTypes = resultTypes ∧
          row.regions = rs := by
      obtain ⟨owner, hrow⟩ := hready.later.kept.op _ _ (op_addOp blueprint) hnew
      refine ⟨_, hrow, ?_⟩
      subst hblueprint
      exact ⟨rfl, hvs.symm, rfl, rfl, rfl, rfl⟩
    -- its results get the next numbers, before its regions
    have hresults : (s₂.context.addOp blueprint).1.results ⟨s₂.context.ops.size⟩ = vs := by
      rw [results_eq_readOp, readOp_of_op (op_addOp blueprint), hvs]
      rfl
    have hlengths : vs.length = h.results.length := by
      rw [hvs, length_nextValues, hblueprint, htypes'.length_eq, Normal.types_eq_map,
        List.length_map, hlength]
    have hmem {v : ValueRef} (hv : v ∈ vs) : s₂.context.values.size ≤ v.index ∧
        v.index < (s₂.context.addOp blueprint).1.values.size := by
      rw [size_values_addOp, ← mem_nextValues, ← hvs]
      exact hv
    have hsizes : s.context.values.size = ctx₂.values.size :=
      (congrArg (·.values.size) (hi₁.trans hi₂)).symm
    have hle₂ := (later_of_built .empty h₂ he₂').size_values_le
    have hle₃ := hlater₂.size_values_le
    have huntouched₁ : Untouched s₂.context.values.size
        (s₂.context.addOp blueprint).1.values.size ν (ν.push vs) := fun v hv =>
      Naming.lookup_push fun hv' => by have := hmem hv'; omega
    have hself := Naming.lookup_push_self (ν := ν) (hvs ▸ nodup_nextValues _ _)
    rw [hlengths, hready.aligned.nextValue] at hself
    have haligned₁ : Aligned { s with context := ctx₂ } (st.skip h.results.length) (ν.push vs) := by
      rw [← hlengths]
      exact (hready.aligned.grow hsizes.le).push fun v hv => hle₂.trans (hmem hv).1
    have hunnamed₁ : Unnamed ctx₂.values.size s₂.context.values.size (ν.push vs) := by
      intro v hv hv'
      rw [huntouched₁ v (.inl hv')]
      exact hready.unnamed v (hsizes.le.trans hv) (hv'.trans_le hle₃)
    obtain ⟨n, rfl⟩ := Nat.exists_eq_add_one.2 (Nat.zero_lt_of_lt hn)
    obtain ⟨Ms, st₂, hnormal, Ns, ν₂, hyields, rfl, haligned₂, huntouched₂, hdepicts⟩ :=
      regions_quoted _ terms _ rs s₂ ctx _ _ n ⟨h₁.sound, he.founded hready.founded,
        hlater.extend h₁.extends, haligned₁, hunnamed₁⟩ hregions (Nat.le_of_lt_succ hn)
    -- its operands have the numbers that their names stand for
    obtain ⟨ns, hns, hnumbers⟩ := hready.aligned.resolve (forall₂_of_mapM_resolve hoperands)
    have hkeep₁ : ν.Agrees fun v => (ν.push vs).names.lookup v := by
      refine Naming.Agrees.before (fun _ _ hv => hv) (fun v hv hv' => ?_) huntouched₁
      exact hready.unnamed v (hsizes.le.trans (hle₂.trans hv)) hv'
    have hkeep₂ : (ν.push vs).Agrees fun v => ν₂.names.lookup v :=
      Naming.Agrees.before (fun _ _ hv => hv) hunnamed₁ huntouched₂
    have hremembers : ctx₁.Remembers ctx :=
      he₂.remembers.trans (he₂'.remembers.trans hlater.remembers)
    have hattributes := Quote.entries_mono hremembers (type_later hremembers) hattrs'
    have htypes'' := htypes'.imp fun t term ht => ht.type (he₂'.remembers.trans hlater.remembers)
    have hhead : Yields (Quote.head ctx ⟨s₂.context.ops.size⟩) ν
        { Normal.head (st.fresh h.results.length) ns h with span := row.location.span }
        (ν.push vs) := by
      have hnumbers₁ : List.Forall₂ (fun v n => (ν.push row.results).names.lookup v = some n)
          row.operands ns := by
        rw [hrowResults, hrowOperands]
        exact hnumbers.imp hkeep₁
      have hhead := yields_head hrow hrowKind hnumbers₁ (hrowAttributes ▸ hattributes)
        (hrowTypes ▸ htypes'')
      rwa [hrowResults, hlengths, hready.aligned.nextValue] at hhead
    rw [hresults]
    refine ⟨_, _, Normal.op_eq_some.2 ⟨hlength, ns, _, st₂, hns, hnormal, rfl, rfl⟩,
      .mk _ Ns, ν₂, .bind hhead (.bind (.lift hrow) (.bind (hrowRegions ▸ hyields) (.pure _))), rfl,
      (haligned₂.grow hle₃).bind (hself.imp hkeep₂) fun v hv => (hmem hv).2, fun v hv => ?_,
      fun number hnumber => ?_⟩
    · rw [huntouched₂ v (hv.imp (fun h => h.trans_eq hsizes) hle₃.trans),
        huntouched₁ v (hv.imp (·.trans_le (hsizes.le.trans hle₂)) id)]
    · have hnumber₁ : (ν.push vs).Agrees number := hnumber.before hunnamed₁ huntouched₂
      refine ⟨row, hrow, ⟨hrowKind, ?_, ?_, ?_, ?_⟩, ?_⟩
      · rw [hrowResults]
        exact forall₂_names (hself.imp hnumber₁)
      · rw [hrowOperands]
        exact forall₂_names (hnumbers.imp fun v n hv => hnumber₁ v n (hkeep₁ v n hv))
      · rw [hrowAttributes, Normal.headEntries_head]
        exact hattributes
      · rw [hrowTypes]
        exact htypes''
      · rw [hrowRegions]
        exact hdepicts number hnumber

theorem regions_quoted : ∀ (location : Location) (terms : List RegionTerm) (s : Builder)
    (rs : List RegionRef) (s' : Builder) (ctx : Context) (st : Numbering) (ν : Naming) (n : Nat),
    Ready s s' ctx st ν → Runs (regions location terms) s rs s' → s'.context.ops.size ≤ n →
    ∃ Ms st', Normal.regions terms st = some (Ms, st') ∧
      Told s s' st' ν (rs.mapM (Quote.region ctx (Quote.opWithin ctx n)))
        (Unplaced.regions · = Ms) fun number => Depicts.regions ctx number Ms rs
  | location, [], s, rs, s', ctx, st, ν, n, hready, hrun, hn => by
    rw [regions] at hrun
    obtain ⟨rfl, rfl⟩ := runs_pure.1 hrun
    exact ⟨[], st, rfl, [], ν, .mapM_nil _, rfl, hready.aligned, .refl, fun _ _ => rfl⟩
  | location, .mk terms :: rest, s, rs, s', ctx, st, ν, n, hready, hrun, hn => by
    obtain ⟨bs, s₁, rs', hblocks, hrest, rfl⟩ := regions_cons_runs hrun
    obtain ⟨h₁, hmade₁, hnodup₁⟩ := blocks_spec location terms s bs s₁ hready.sound hblocks
    have he₁ := stepwise_enriched.blocks terms hblocks hready.founded
    have h₂ := h₁.addRegion hmade₁ hnodup₁ location
    have he₂ := he₁.trans (enriched_addRegion location bs)
    obtain ⟨h₃, -, -⟩ := regions_spec location rest _ rs' s' h₂.sound hrest
    have he₃ := stepwise_enriched.regions rest hrest (he₂.founded hready.founded)
    have hlater : Later s.context s₁.context s'.context :=
      (Later.addRegion location bs).trans (later_of_built _ h₃ he₃)
    -- the region is new, so that it lists these blocks from now on
    have hnew : ¬s.context.HasRegion ⟨s₁.context.regions.size⟩ := fun hr =>
      not_hasRegion_size (h₁.extends.hasRegion hr)
    obtain ⟨_, hrow⟩ := ((later_of_built _ h₃ he₃).trans hready.later).kept.region _ _
      (region_addRegion location bs) hnew
    obtain ⟨hops, hvalues⟩ := size_addRegion s₁.context location bs
    have hn₁ : s₁.context.ops.size ≤ n := (hops ▸ size_ops_le h₃.extends).trans hn
    obtain ⟨Bs, st₁, hnormal₁, hlengths, Ns, ν₁, hyields₁, rfl, haligned₁, huntouched₁, hdepicts₁⟩ :=
      blocks_quoted location (Normal.isBare terms) terms s bs s₁ ctx st ν n
        Normal.args_eq_nil_of_isBare (hready.first hlater) hblocks hn₁
    have hready₁ : Ready { s₁ with context := (s₁.context.addRegion location bs).1 } s' ctx st₁ ν₁ :=
      hready.rest h₂ he₂ (haligned₁.grow hvalues.ge) (hvalues ▸ huntouched₁)
    obtain ⟨Rs, st', hnormal', Ns', ν', hyields', rfl, haligned', huntouched', hdepicts'⟩ :=
      regions_quoted location rest _ rs' s' ctx st₁ ν₁ n hready₁ hrest hn
    have hbare : Quote.isBare ctx bs = Normal.isBare terms := by
      rw [isBare_eq, hlengths, Normal.isBare]
    refine ⟨_, st', Normal.regions_cons_eq_some.2 ⟨_, st₁, _, hnormal₁, hnormal', rfl⟩,
      .mk Ns :: Ns', ν', .mapM_cons (yields_region hrow ?_) hyields', rfl, haligned', ?_,
      fun number hnumber => ?_⟩
    · rw [hbare]
      exact hyields₁
    · rw [hvalues] at huntouched'
      exact huntouched₁.trans huntouched' (later_of_built .empty h₁ he₁).size_values_le
        hlater.size_values_le
    · exact ⟨_, rs', _, rfl, hrow, hdepicts₁ number (hnumber.before hready₁.unnamed huntouched'),
        hdepicts' number hnumber⟩

theorem blocks_quoted : ∀ (location : Location) (bare : Bool) (terms : List BlockTerm)
    (s : Builder) (bs : List BlockRef) (s' : Builder) (ctx : Context) (st : Numbering) (ν : Naming)
    (n : Nat), (bare = true → ∀ term ∈ terms, term.args = []) → Ready s s' ctx st ν →
    Runs (blocks location terms) s bs s' → s'.context.ops.size ≤ n →
    ∃ Ms st', Normal.blocks bare terms st = some (Ms, st') ∧
      bs.map (fun b => (ctx.args b).length) = terms.map (·.args.length) ∧
      Told s s' st' ν (bs.mapM (Quote.block ctx bare (Quote.opWithin ctx n)))
        (Unplaced.blocks · = Ms) fun number => Depicts.blocks ctx number Ms bs
  | location, bare, [], s, bs, s', ctx, st, ν, n, hbare, hready, hrun, hn => by
    rw [blocks] at hrun
    obtain ⟨rfl, rfl⟩ := runs_pure.1 hrun
    exact ⟨[], st, rfl, rfl, [], ν, .mapM_nil _, rfl, hready.aligned, .refl, fun _ _ => rfl⟩
  | location, bare, .mk label terms :: rest, s, bs, s', ctx, st, ν, n, hbare, hready, hrun, hn => by
    obtain ⟨argTypes, ctx₁, s₂, bs', htypes, hops, hrest, rfl⟩ := blocks_cons_steps hrun
    obtain ⟨he₁, hsays⟩ := types_say hready.founded htypes
    have hi := interned_types (((label.map Label.args).getD []).map Prod.snd) s.context
    rw [htypes] at hi
    have h₁ := Built.interned hready.sound hi
    have h₂ := h₁.trans (Built.addBlock h₁.sound location argTypes)
    have he₂ := he₁.trans (enriched_addBlock location argTypes)
    have hrow := block_addBlock ctx₁ location argTypes
    have hhas : (ctx₁.addBlock location argTypes []).1.HasBlock ⟨ctx₁.blocks.size⟩ :=
      hasBlock_iff.2 ⟨_, hrow⟩
    have hfree := readBlock_of_block hrow (·.parent) none
    have hnew : ¬s.context.HasBlock ⟨ctx₁.blocks.size⟩ := fun hb =>
      not_hasBlock_size (h₁.extends.hasBlock hb)
    have hfilled := ops_spec _ terms _ () s₂ h₂.sound hhas hfree hops
    have hlater₂ := ops_later _ hhas terms _ () s₂ h₂.sound (he₂.founded hready.founded) hhas hfree
      hops
    have h₃ : Built s.context s₂.context :=
      ⟨hfilled.extended _ h₂.extends hnew, hfilled.sound, fun o ho => h₂.live o (hfilled.live o ho)⟩
    have he₃ := he₂.trans (stepwise_enriched.ops terms hops (he₂.founded hready.founded))
    obtain ⟨h₄, -, -⟩ := blocks_spec location rest s₂ bs' s' hfilled.sound hrest
    have he₄ := stepwise_enriched.blocks rest hrest (he₃.founded hready.founded)
    have hlater₄ : Later s.context s₂.context s'.context := later_of_built _ h₄ he₄
    -- the arguments get the next numbers
    have hsize : (ctx₁.addBlock location argTypes []).1.values.size = _ :=
      size_values_addBlock
    have hlength : (ctx₁.nextValues argTypes.length).length =
        (BlockTerm.mk label terms).args.length := by
      rw [length_nextValues, hsays.length_eq, Normal.types_eq_map, List.length_map, List.length_map]
      rfl
    have hvalues : s.context.values = ctx₁.values := (congrArg Context.values hi).symm
    have hargs : bare = true → (BlockTerm.mk label terms).args = [] := fun hb =>
      hbare hb _ List.mem_cons_self
    have haligned := aligned_enter (ctx₁.addBlock location argTypes []).1 hready.aligned bare
      hlength (nodup_nextValues _ _) (by rw [hvalues, hsize]; exact Nat.le_add_right _ _) fun v hv => by
        rw [hvalues, hsize]
        exact mem_nextValues.1 hv
    have huntouched : Untouched s.context.values.size
        (ctx₁.addBlock location argTypes []).1.values.size ν
        ((if bare then ν else ν.label).push (ctx₁.nextValues argTypes.length)) := by
      intro v hv
      rw [Naming.lookup_push fun hmem => ?_]
      · cases bare <;> rfl
      · rw [mem_nextValues, ← hvalues] at hmem
        rw [hsize, ← hvalues] at hv
        omega
    have hready₂ := (hready.rest h₂ he₂ haligned huntouched).first (later_of_built _ h₄ he₄)
    -- the operations of the block, then the other blocks
    have hn₂ := (size_ops_le h₄.extends).trans hn
    have hargs₂ : (ctx₁.addBlock location argTypes []).1.args ⟨ctx₁.blocks.size⟩ =
        ctx₁.nextValues argTypes.length := by rw [args_eq_readBlock, readBlock_of_block hrow]
    rw [hargs₂] at hops
    obtain ⟨os, Os, st₂, hrow₂, hnormal₂, Ns, ν₂, hyields₂, rfl, haligned₂, huntouched₂, hdepicts₂⟩ :=
      ops_quoted _ terms _ () s₂ ctx _ _ n _ hready₂ hrow rfl hops hn₂
    have hle₂ : s.context.values.size ≤ s₂.context.values.size :=
      (later_of_built .empty h₃ he₃).size_values_le
    have huntouched₃ := huntouched.trans huntouched₂
      (later_of_built .empty h₂ he₂).size_values_le hlater₂.size_values_le
    have hready₃ := hready.rest h₃ he₃ haligned₂ huntouched₃
    obtain ⟨Bs, st', hnormal', hlengths', Ns', ν', hyields', rfl, haligned', huntouched', hdepicts'⟩ :=
      blocks_quoted location bare rest s₂ bs' s' ctx st₂ ν₂ n
        (fun hb t ht => hbare hb t (List.mem_cons_of_mem _ ht)) hready₃ hrest hn
    obtain ⟨owner, hrow'⟩ := (hlater₄.trans hready.later).kept.block _ _ hrow₂ hnew
    have hvs : List.Forall₂ (fun v t => ∃ row, ctx.value v = .ok row ∧
        Quote.type ctx row.type = .ok t) (ctx₁.nextValues argTypes.length)
          (Normal.types ((BlockTerm.mk label terms).args.map Prod.snd)) := by
      refine (value_addBlock location hsays).imp fun v t hv => ?_
      obtain ⟨row, hrow, hsays⟩ := hv
      have hremembers := (enriched_addBlock location argTypes).remembers.trans (hlater₂.remembers.trans
        (hlater₄.remembers.trans hready.later.remembers))
      have hvalue := hlater₄.value v row (hlater₂.value v row hrow)
      exact ⟨row, hready.later.value v row hvalue, hsays.type hremembers⟩
    refine ⟨_, st', Normal.blocks_cons_eq_some.2 ⟨_, st₂, _, hnormal₂, hnormal', rfl⟩, ?_,
      .mk (Normal.label bare (BlockTerm.mk label terms).args st) Ns :: Ns', ν',
      .mapM_cons (yields_block hready.aligned hargs hrow' hvs hyields₂) hyields', rfl, haligned',
      huntouched₃.trans huntouched' hle₂ hlater₄.size_values_le, fun number hnumber => ?_⟩
    · rw [List.map_cons, List.map_cons, args_eq_readBlock, readBlock_of_block hrow', hlength,
        ← args_eq_readBlock, hlengths']
    · have hnumber₂ := hnumber.before hready₃.unnamed huntouched'
      have hnumber₁ := hnumber₂.before hready₂.unnamed huntouched₂
      refine ⟨_, bs', _, rfl, hrow', ?_, hdepicts₂ number hnumber₂, hdepicts' number hnumber⟩
      rw [Normal.args_label hargs]
      refine forall₂_argument ?_ hvs
      have hns := (Naming.lookup_push_self (ν := if bare then ν else ν.label)
        (nodup_nextValues ctx₁ argTypes.length)).imp fun v n hv => hnumber₁ v n hv
      have hnext : (if bare then ν else ν.label).nextValue = st.nextValue := by
        cases bare <;> exact hready.aligned.nextValue
      rwa [hnext, hlength] at hns

theorem ops_quoted : ∀ (b : BlockRef) (terms : List OpTerm) (s : Builder) (u : Unit)
    (s' : Builder) (ctx : Context) (st : Numbering) (ν : Naming) (n : Nat) (row : Block),
    Ready s s' ctx st ν → s.context.block b = .ok row → row.parent = none →
    Runs (ops b terms) s u s' → s'.context.ops.size ≤ n →
    ∃ os Ms st', s'.context.block b = .ok { row with ops := row.ops ++ os } ∧
      Normal.ops terms st = some (Ms, st') ∧
      Told s s' st' ν (os.mapM (Quote.opWithin ctx n)) (Unplaced.ops · = Ms)
        fun number => Depicts.ops ctx number Ms os
  | b, [], s, u, s', ctx, st, ν, n, row, hready, hrow, hfree, hrun, hn => by
    rw [ops] at hrun
    obtain ⟨-, rfl⟩ := runs_pure.1 hrun
    refine ⟨[], [], st, ?_, rfl, [], ν, .mapM_nil _, rfl, hready.aligned, .refl, fun _ _ => rfl⟩
    rw [List.append_nil]
    exact hrow
  | b, term :: rest, s, u, s', ctx, st, ν, n, row, hready, hrow, hfree, hrun, hn => by
    obtain ⟨o, s₁, ho, hrest⟩ := ops_cons_runs hrun
    obtain ⟨h₁, hmade⟩ := op_spec term s o s₁ hready.sound ho
    have he₁ := stepwise_enriched.op term ho hready.founded
    have hb : s.context.HasBlock b := hasBlock_iff.2 ⟨row, hrow⟩
    have hregion : s.context.regionOf b = none := (readBlock_of_block hrow _ _).trans hfree
    have h₂ := Filled.append h₁ hmade hb hregion
    have he₂ := he₁.trans (enriched_append b o)
    have hlater₂ : Later s.context (s₁.context.append b o) s'.context :=
      ops_later b hb rest { s₁ with context := s₁.context.append b o } () s' h₂.sound
        (he₂.founded hready.founded) h₂.hasBlock h₂.free hrest
    have hlater₁ : Later s.context s₁.context s'.context := (Later.append hb).trans hlater₂
    have hlt : o.index < n := (hlater₁.hasOp hmade.2.1 hmade.1).trans_le hn
    obtain ⟨M, st₁, hnormal₁, N, ν₁, hyields₁, rfl, haligned₁, huntouched₁, hdepicts₁⟩ :=
      op_quoted term s o s₁ ctx st ν n (hready.first hlater₁) ho hlt
    have hrow₁ : (s₁.context.append b o).block b = .ok { row with ops := row.ops ++ [o] } := by
      rw [block_append, if_pos rfl, h₁.extends.block b row hrow]
      rfl
    have hready₁ : Ready { s₁ with context := s₁.context.append b o } s' ctx st₁ ν₁ := by
      have hle := (later_of_built s.context h₁ he₁).size_values_le
      exact ⟨h₂.sound, he₂.founded hready.founded, hready.later.mono
        (fun p hp => by simpa [HasOp, Context.append, modifyOp, modifyBlock] using
          h₁.extends.hasOp hp)
        (fun c hc => by simpa [HasBlock, Context.append, modifyOp, modifyBlock] using
          h₁.extends.hasBlock hc)
        (fun r hr => h₁.extends.hasRegion hr), haligned₁.grow le_rfl,
        hready.unnamed.after huntouched₁ hle⟩
    obtain ⟨os, Ms, st', hrow', hnormal', Ns, ν', hyields', rfl, haligned', huntouched', hdepicts'⟩ :=
      ops_quoted b rest _ () s' ctx st₁ ν₁ n _ hready₁ hrow₁ hfree hrest hn
    refine ⟨o :: os, _, st', ?_, Normal.ops_cons_eq_some.2 ⟨_, st₁, _, hnormal₁, hnormal', rfl⟩,
      N :: Ns, ν', .mapM_cons hyields₁ hyields', rfl, haligned', ?_, fun number hnumber => ?_⟩
    · rw [hrow', List.append_assoc]
      rfl
    · exact huntouched₁.trans huntouched' (later_of_built s.context h₁ he₁).size_values_le
        hlater₂.size_values_le
    · have hbefore := hnumber.before hready₁.unnamed huntouched'
      exact ⟨o, os, rfl, hdepicts₁ number hbefore, hdepicts' number hnumber⟩

end

end Build

end Offload
