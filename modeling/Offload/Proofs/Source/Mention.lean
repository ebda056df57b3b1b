import Offload.Proofs.Source.Order
import Offload.Proofs.Source.RoundTrip
import Offload.Proofs.Validity

/-!
# What a program mentions is there

The rows of a context refer to types by handles, which may dangle. They do not in a program
that was read: the types of the values that it defines and those among the attributes of its
operations are in the table, and so are the parameters of types (`Context.Mentioned`). What is in
scope somewhere is defined by an operation (`Build.read_definer`), and the types of such values can
be looked up (`Build.read_typeOf`).
-/

namespace Offload

open Context

/-- A handle is in the table of types. -/
def Context.HasType (ctx : Context) (t : TypeRef) : Prop := ∃ node, ctx.type t = .ok node

/-- The types that rows mention are in the table. -/
structure Context.Mentioned (ctx : Context) : Prop where
  result : ∀ o, ∀ t ∈ ctx.resultTypesOf o, ctx.HasType t
  argument : ∀ b o, ctx.holder b = some o → ∀ v ∈ ctx.args b,
    ∃ row, ctx.value v = .ok row ∧ ctx.HasType row.type
  entry : ∀ o, ∀ e ∈ (ctx.attributesOf o).entries, ∀ t, e.2.asType? = some t → ctx.HasType t
  param : ∀ t node, ctx.type t = .ok node → ∀ p ∈ node.params, ctx.HasType p

/-! ## Depicted operations -/

theorem hasType_of_quote {ctx : Context} {t : TypeRef} {term : TypeTerm}
    (h : Quote.type ctx t = .ok term) : ctx.HasType t := by
  have hlt := Quote.lt_size_of_typeWithin h
  exact ⟨ctx.types.rows[t.index], type_eq_ok.2 (Array.getElem?_eq_getElem hlt)⟩

namespace Depicts

variable {ctx : Context} {number : ValueRef → Option Nat}

theorem exists_op : ∀ {terms : List OpTerm} {os : List OpRef}, ops ctx number terms os →
    ∀ o ∈ os, ∃ term, op ctx number term o
  | [], os, h, o, ho => by
    obtain rfl : os = [] := h
    cases ho
  | term :: rest, os, h, o, ho => by
    obtain ⟨q, os', rfl, hop, hrest⟩ := h
    rcases List.mem_cons.1 ho with rfl | ho
    · exact ⟨term, hop⟩
    · exact exists_op hrest o ho

/-- What is in blocks that are depicted is depicted, and so are their arguments. -/
theorem exists_block : ∀ {terms : List BlockTerm} {bs : List BlockRef}, blocks ctx number terms bs →
    ∀ b ∈ bs, ∃ args terms, List.Forall₂ (Argument ctx number) args (ctx.args b) ∧
      ops ctx number terms (ctx.opsOf b)
  | [], bs, h, b, hb => by
    obtain rfl : bs = [] := h
    cases hb
  | .mk label inner :: rest, bs, h, b, hb => by
    obtain ⟨c, bs', row, rfl, hrow, hargs, hops, hrest⟩ := h
    rcases List.mem_cons.1 hb with rfl | hb
    · refine ⟨(BlockTerm.mk label inner).args, inner, ?_, ?_⟩
      · rw [args_eq_readBlock, readBlock_of_block hrow]
        exact hargs
      · rw [opsOf, readBlock_of_block hrow]
        exact hops
    · exact exists_block hrest b hb

theorem exists_region : ∀ {terms : List RegionTerm} {rs : List RegionRef},
    regions ctx number terms rs → ∀ r ∈ rs, ∃ terms, blocks ctx number terms (ctx.blocksOf r)
  | [], rs, h, r, hr => by
    obtain rfl : rs = [] := h
    cases hr
  | .mk terms :: rest, rs, h, r, hr => by
    obtain ⟨q, rs', row, rfl, hrow, hblocks, hrest⟩ := h
    rcases List.mem_cons.1 hr with rfl | hr
    · refine ⟨terms, ?_⟩
      rw [blocksOf, readRegion_of_region hrow]
      exact hblocks
    · exact exists_region hrest r hr

variable {root o : OpRef} {term : OpTerm}

/-- The blocks of an operation that is depicted. -/
theorem exists_blocks (h : op ctx number term o) {r : RegionRef} (hr : r ∈ ctx.regionsOf o) :
    ∃ terms, blocks ctx number terms (ctx.blocksOf r) := by
  obtain ⟨head, terms⟩ := term
  obtain ⟨row, hrow, -, hregions⟩ := h
  rw [regionsOf, readOp_of_op hrow] at hr
  exact exists_region hregions r hr

/-- All that is nested in an operation that is depicted is depicted. -/
theorem exists_within (hc : ctx.Coherent) (h : op ctx number term root)
    (ho : ctx.Within o root) : ∃ term, op ctx number term o := by
  induction ho using Relation.ReflTransGen.head_induction_on with
  | refl => exact ⟨term, h⟩
  | @head o p hstep _ ih =>
    obtain ⟨term, hp⟩ := ih
    obtain ⟨r, hr, ho⟩ := List.mem_flatMap.1 (hc.mem_childrenOf.2 hstep)
    obtain ⟨b, hb, ho⟩ := List.mem_flatMap.1 ho
    obtain ⟨terms, hblocks⟩ := exists_blocks hp hr
    obtain ⟨-, terms, -, hops⟩ := exists_block hblocks b hb
    exact exists_op hops o ho

theorem hasType_of_attribute {f : TypeRef → Except Fault TypeTerm} {as : List (String × Attribute)}
    {es : List Entry} (h : Quote.entries ctx f as = .ok es) {e : String × Attribute} (he : e ∈ as)
    {t : TypeRef} (ht : e.2.asType? = some t) : ∃ term, f t = .ok term := by
  obtain ⟨entry, -, hentry⟩ := Outcome.exists_of_mem_left (Outcome.mapM_eq_ok.1 h) he
  obtain ⟨key, a⟩ := e
  obtain ⟨term, ha, -⟩ := Outcome.bind_eq_ok.1 hentry
  clear hentry he h
  cases Quote.describes_of_value ha with
  | plain hx =>
    rename_i x
    -- the plain ones are no types
    cases x with
    | type t' => cases term <;> simp [AttributeTerm.atom?] at hx
    | _ => cases ht
  | type hterm =>
    obtain rfl := Option.some.inj ht
    exact ⟨_, hterm⟩
  | location _ => cases ht
  | list _ => cases ht

end Depicts

theorem Context.Founded.param {ctx : Context} (h : ctx.Founded) {t : TypeRef} {node : TypeNode}
    (ht : ctx.type t = .ok node) : ∀ p ∈ node.params, ctx.HasType p := by
  intro p hp
  have hlt := (Array.getElem?_eq_some_iff.1 (type_eq_ok.1 ht)).1
  obtain ⟨term, hterm⟩ := h t.index hlt
  rw [Quote.typeWithin_succ] at hterm
  obtain ⟨node', hnode, hterm⟩ := Outcome.bind_eq_ok.1 hterm
  obtain rfl := Except.ok.inj (ht.symm.trans hnode)
  obtain ⟨params, hparams, -⟩ := Outcome.bind_eq_ok.1 hterm
  obtain ⟨term, -, hterm⟩ := Outcome.exists_of_mem_left (Outcome.mapM_eq_ok.1 hparams) hp
  have hlt := Quote.lt_size_of_typeWithin hterm
  exact ⟨ctx.types.rows[p.index], type_eq_ok.2 (Array.getElem?_eq_getElem hlt)⟩

namespace Build

variable {path text : String} {root : OpRef} {ctx : Context}

/-- What a program mentions is there once it is read. -/
theorem read_mentioned (hread : Context.empty.read path text = (.ok root, ctx)) :
    ctx.Mentioned := by
  obtain ⟨horderly, T, M, st, ν, -, -, -, -, hdepicts⟩ := read_normal orderly_empty hread
  have hc := horderly.sound.coherent
  have hop (o : OpRef) (ho : ctx.HasOp o) := Depicts.exists_within hc hdepicts (read_within hread ho)
  refine ⟨fun o t ht => ?_, fun b o hb v hv => ?_, fun o e he t ht => ?_,
    fun t node ht => horderly.founded.param ht⟩
  · have ho : ctx.HasOp o := by
      by_contra hn
      rw [resultTypesOf, readOp_of_not_hasOp hn] at ht
      cases ht
    obtain ⟨⟨head, terms⟩, row, hrow, hline, -⟩ := hop o ho
    rw [resultTypesOf, readOp_of_op hrow] at ht
    obtain ⟨term, -, hterm⟩ := Outcome.exists_of_mem_left hline.types ht
    exact hasType_of_quote hterm
  · obtain ⟨r, hr, howner⟩ := Option.bind_eq_some_iff.1 hb
    obtain ⟨term, hterm⟩ := hop o (hc.hasOp_of_ownerOf howner)
    obtain ⟨terms, hblocks⟩ := Depicts.exists_blocks hterm ((hc.regions.owner_iff r o).1 howner)
    obtain ⟨args, -, hargs, -⟩ := Depicts.exists_block hblocks b ((hc.blocks.owner_iff b r).1 hr)
    obtain ⟨arg, -, -, row, hrow, htype⟩ := Outcome.exists_of_mem_right hargs hv
    exact ⟨row, hrow, hasType_of_quote htype⟩
  · have ho : ctx.HasOp o := by
      by_contra hn
      rw [attributesOf, readOp_of_not_hasOp hn] at he
      cases he
    obtain ⟨⟨head, terms⟩, row, hrow, hline, -⟩ := hop o ho
    rw [attributesOf, readOp_of_op hrow] at he
    obtain ⟨term, hterm⟩ := Depicts.hasType_of_attribute hline.attributes he ht
    exact hasType_of_quote hterm

/-- What is in scope somewhere is defined by an operation. -/
theorem read_definer (hread : Context.empty.read path text = (.ok root, ctx)) {o : OpRef}
    {v : ValueRef} (hv : ctx.InScope o v) : ∃ p, ctx.definer v = some p := by
  obtain ⟨hsound, -, hdetached, -⟩ := read_built hread
  have hc := hsound.coherent
  obtain ⟨w, -, hw⟩ := hv
  rw [definer]
  cases hsource : ctx.sourceOf v with
  | none => simp [hsource] at hw
  | some source =>
    cases source with
    | result p n => exact ⟨p, rfl⟩
    | argument b n =>
      rw [hsource] at hw
      -- the root stands in no block, so there is an operation around `w`
      have hwroot := read_within hread (hc.hasOp_of_mem ((hc.ops.owner_iff w b).1 hw))
      rcases within_iff_above.1 hwroot with rfl | ⟨p, hp, -⟩
      · rw [hdetached] at hw
        cases hw
      · rw [above, hw] at hp
        exact ⟨p, hp⟩

/-- The type of a value that is defined by an operation can be looked up. -/
theorem read_typeOf (hread : Context.empty.read path text = (.ok root, ctx)) {v : ValueRef}
    {p : OpRef} (hv : ctx.definer v = some p) : ∃ t, ctx.typeOf v = .ok t ∧ ctx.HasType t := by
  have hc := (read_built hread).1.coherent
  have hm := read_mentioned hread
  rw [definer] at hv
  cases hrow : ctx.values[v.index]? with
  | none =>
    rw [sourceOf, hrow] at hv
    cases hv
  | some row =>
    have hvalue := value_eq_ok.2 hrow
    have hsource : ctx.sourceOf v = some row.source := by rw [sourceOf, hrow]; rfl
    rw [hsource] at hv
    refine ⟨row.type, by rw [typeOf, hvalue]; rfl, ?_⟩
    cases hdef : row.source with
    | result q n =>
      have htype := (read_fresh hread).typed.result v row q n hvalue hdef
      exact hm.result q _ (List.mem_of_getElem? htype)
    | argument b n =>
      rw [hdef] at hv hsource
      obtain ⟨row', hrow', htype⟩ := hm.argument b p hv v ((mem_args_iff hc).2 ⟨n, hsource⟩)
      obtain rfl := Except.ok.inj (hvalue.symm.trans hrow')
      exact htype

/-! ## Programs that are valid by running the checks -/

/-- Whether a text is a valid program that passes a test. -/
def readsAs (path text : String) (test : OpRef → Context → Bool) : Bool :=
  match Context.empty.read path text with
  | (.error _, _) => false
  | (.ok root, ctx) =>
    match ctx.findings root with
    | .ok findings => findings.isEmpty && test root ctx
    | .error _ => false

theorem exists_of_readsAs {test : OpRef → Context → Bool} (h : readsAs path text test) :
    ∃ root ctx findings, Context.empty.read path text = (.ok root, ctx) ∧
      ctx.findings root = .ok findings ∧ findings.isEmpty ∧ test root ctx := by
  unfold readsAs at h
  split at h
  · cases h
  · rename_i root ctx hread
    split at h
    · rename_i findings hfindings
      rw [Bool.and_eq_true] at h
      exact ⟨root, ctx, findings, hread, hfindings, h.1, h.2⟩
    · cases h

/-- Whether characters are a valid program that passes a test. -/
def readsAsChars (path : String) (cs : List Char) (test : OpRef → Context → Bool) : Bool :=
  readsChars path cs fun root ctx =>
    match ctx.findings root with
    | .ok findings => findings.isEmpty && test root ctx
    | .error _ => false

theorem readsAs_ofList {cs : List Char} {test : OpRef → Context → Bool}
    (h : readsAsChars path cs test) : readsAs path (String.ofList cs) test := by
  obtain ⟨root, ctx, hread, h⟩ := exists_of_readsChars h
  unfold readsAs
  rw [hread]
  exact h

end Build

end Offload
