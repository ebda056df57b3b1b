import Offload.Proofs.Device.Translation

/-!
# What functions become

A function with a body is lowered to one block: what its operations become one after the other,
under one image of their values (`Function.Renders`). The values are numbered in the order in which
they are defined, each before it is used, and the block ends with its only terminator, because the
body does (`Lowers.depicts`).
-/

namespace Offload.Device

open Context

variable {ctx : Context} {σ : ValueRef → Operand} {o op : OpRef} {v : ValueRef}
  {b b' : Building} {ops : List OpRef} {new : List (ValueRef × Operand)}
  {codes : List (List Instruction)}

/-! ## Functions without a state -/

/-- A function is what the operations of a block become. -/
structure Function.Renders (ctx : Context) (block : BlockRef) (σ : ValueRef → Operand)
    (f : Function) : Prop where
  /-- The images of arguments are values. -/
  arguments : ∀ v ∈ ctx.args block, ∃ name, σ v = .value name
  /-- The parameters are the images of the first arguments. -/
  parameters : List.Forall₂ (fun v p => some (σ v) = p.name.map .value)
    ((ctx.args block).take f.parameters.length) f.parameters
  /-- The images of results are values, but for those of constants. -/
  results : ∀ o ∈ ctx.opsOf block, ctx.kindOf o ≠ .const → ∀ v ∈ ctx.results o,
    ∃ name, σ v = .value name
  /-- The only block has what each operation becomes, in their order. -/
  body : ∃ codes, List.Forall₂ (Becomes ctx σ) (ctx.opsOf block) codes ∧
    f.blocks = [⟨"entry", codes.flatten⟩]
  /-- The values are numbered in the order in which they are defined. -/
  numbers : f.values = (List.range f.values.length).map toString
  /-- Every value is defined before it is used. -/
  defined : ∀ before i after, f.instructions = before ++ i :: after →
    ∀ name, .value name ∈ i.action.operands →
      (∃ p ∈ f.parameters, p.name = some name) ∨ ∃ j ∈ before, j.result = some name
  /-- The only terminator is the return at the end. -/
  ends : ∃ before value, f.instructions = before ++ [{ result := none, action := .ret value }] ∧
    ∀ i ∈ before, i.action.isTerminator = false

/-- A function is that of an operation, and has a body iff this has one. -/
structure Depicts (ctx : Context) (o : OpRef) (f : Function) : Prop where
  kind : ctx.kindOf o = .func
  functionName : ctx.functionName o = .ok f.name
  body : ∃ r, ctx.regionsOf o = [r] ∧ (ctx.blocksOf r = [] ∧ f.blocks = [] ∨
    ∃ block σ, ctx.blocksOf r = [block] ∧ f.Renders ctx block σ)

/-! ## Operations one after the other -/

/-- Operations are lowered one after the other. -/
structure Translates (ctx : Context) (ops : List OpRef) (b b' : Building)
    (new : List (ValueRef × Operand)) (codes : List (List Instruction)) : Prop where
  operands : b'.operands = new ++ b.operands
  instructions : b'.instructions = b.instructions ++ codes.flatten
  counts : Counts b.next codes.flatten b'.next
  bounded : b'.Bounded
  origin : ∀ e ∈ new, ∃ o ∈ ops, e.1 ∈ ctx.results o ∧
    (ctx.kindOf o ≠ .const → ∃ name, e.2 = .value name)
  nodup : (new.map Prod.fst).Nodup
  becomes : ∀ σ : ValueRef → Operand, (∀ e ∈ b'.operands, σ e.1 = e.2) →
    List.Forall₂ (Becomes ctx σ) ops codes

theorem Translated.bounded {code : List Instruction} (h : Translated ctx o b b' new code)
    (hb : b.Bounded) : b'.Bounded := by
  intro e he
  rw [h.operands] at he
  obtain he | he := List.mem_append.1 he
  · exact h.below e he
  · exact (hb e he).mono h.counts.le

/-- The results of different operations are different values. -/
theorem eq_of_mem_results (hc : ctx.Coherent) {p : OpRef} (ho : v ∈ ctx.results o)
    (hp : v ∈ ctx.results p) : o = p :=
  Option.some.inj ((definer_of_mem_results hc ho).symm.trans (definer_of_mem_results hc hp))

theorem Translates.cons (hc : ctx.Coherent) {next : Building} {new' : List (ValueRef × Operand)}
    {code : List Instruction} (h : Translated ctx o b next new code)
    (h' : Translates ctx ops next b' new' codes) (ho : o ∉ ops) :
    Translates ctx (o :: ops) b b' (new' ++ new) (code :: codes) where
  operands := by rw [h'.operands, h.operands, List.append_assoc]
  instructions := by
    rw [h'.instructions, h.instructions, List.append_assoc, List.flatten_cons]
  counts := h.counts.append h'.counts
  bounded := h'.bounded
  origin e he := by
    obtain he | he := List.mem_append.1 he
    · obtain ⟨p, hp, horigin⟩ := h'.origin e he
      exact ⟨p, List.mem_cons_of_mem o hp, horigin⟩
    · exact ⟨o, List.mem_cons_self, h.results e he, fun hkind => h.named hkind e he⟩
  nodup := by
    rw [List.map_append]
    refine List.nodup_append.2 ⟨h'.nodup, h.nodup, ?_⟩
    -- an operation does not stand among the others, and its results are no others'
    rintro v hv _ hw rfl
    obtain ⟨e, he, rfl⟩ := List.mem_map.1 hv
    obtain ⟨p, hp, hresult, -⟩ := h'.origin e he
    obtain ⟨e', he', heq⟩ := List.mem_map.1 hw
    exact ho (eq_of_mem_results hc (heq ▸ h.results e' he') hresult ▸ hp)
  becomes σ hσ := by
    refine .cons (h.becomes σ fun e he => hσ e ?_) (h'.becomes σ hσ)
    rw [h'.operands]
    exact List.mem_append_right _ he

theorem LowersOps.translates (h : LowersOps ctx ops b b') (hc : ctx.Coherent)
    (hnodup : ops.Nodup) (hshaped : ∀ o ∈ ops, ctx.Shaped o) (hb : b.Bounded) :
    ∃ new codes, Translates ctx ops b b' new codes := by
  induction h with
  | nil =>
    exact ⟨[], [], rfl, (List.append_nil _).symm, .nil, hb, List.forall_mem_nil _, .nil,
      fun _ _ => .nil⟩
  | cons first _ ih =>
    obtain ⟨ho, hnodup⟩ := List.nodup_cons.1 hnodup
    obtain ⟨hfirst, hshaped⟩ := List.forall_mem_cons.1 hshaped
    obtain ⟨new, code, hnext⟩ := first.translated hfirst hb
    obtain ⟨new', codes, hrest⟩ := ih hnodup hshaped (hnext.bounded hb)
    exact ⟨_, _, hrest.cons hc hnext ho⟩

/-! ## Terminators -/

theorem Queries.isTerminator {a : Action} (h : Queries ctx o a) :
    a.isTerminator = false ∧ (ctx.kindOf o).isTerminator = false := by
  obtain ⟨hkind, -⟩ := h
  have hgrid : ∀ e ∈ gridRegisters, e.1.isTerminator = false := by decide
  exact ⟨rfl, hgrid _ hkind⟩

theorem Computes.isTerminator {R : Standing} {a : Action} (h : Computes ctx R o v a) :
    a.isTerminator = false ∧ (ctx.kindOf o).isTerminator = false := by
  have hbinary : ∀ kind ∈ OpKind.arithmetic ++ OpKind.comparisons, kind.isTerminator = false := by
    decide
  cases h with
  | arithmetic hkind => exact ⟨rfl, hbinary _ (List.mem_append_left _ hkind)⟩
  | compareInt hkind => exact ⟨rfl, hbinary _ (List.mem_append_right _ hkind)⟩
  | compareFloat hkind => exact ⟨rfl, hbinary _ (List.mem_append_right _ hkind)⟩
  | query hquery => exact hquery.isTerminator
  | power hkind | load hkind | alloca hkind | offset hkind | call hkind =>
    rw [hkind]
    exact ⟨rfl, by decide⟩

/-- A terminator becomes a return, and nothing else becomes a terminator. -/
theorem Becomes.ends {code : List Instruction} (h : Becomes ctx σ o code) :
    (ctx.kindOf o).isTerminator = true ∧
        (∃ value, code = [{ result := none, action := .ret value }]) ∨
      (ctx.kindOf o).isTerminator = false ∧ ∀ i ∈ code, i.action.isTerminator = false := by
  cases h with
  | const hkind =>
    rw [hkind]
    exact .inr ⟨by decide, fun i hi => absurd hi List.not_mem_nil⟩
  | perform ha =>
    cases ha with
    | leave hkind | answer hkind =>
      rw [hkind]
      exact .inl ⟨by decide, _, rfl⟩
    | store hkind | call hkind | barrier hkind =>
      rw [hkind]
      exact .inr ⟨by decide, List.forall_mem_singleton.2 rfl⟩
  | define ha =>
    obtain ⟨ha, hkind⟩ := ha.isTerminator
    exact .inr ⟨hkind, List.forall_mem_singleton.2 ha⟩
  | widen ha =>
    obtain ⟨ha, hkind⟩ := ha.isTerminator
    exact .inr ⟨hkind, List.forall_mem_cons.2 ⟨ha, List.forall_mem_singleton.2 rfl⟩⟩

/-- What a block that ends with its only terminator becomes ends so as well. -/
theorem ends_of_endsWell {block : BlockRef} (h : ctx.EndsWell block)
    (hcodes : List.Forall₂ (Becomes ctx σ) (ctx.opsOf block) codes) :
    ∃ before value, codes.flatten = before ++ [{ result := none, action := .ret value }] ∧
      ∀ i ∈ before, i.action.isTerminator = false := by
  obtain ⟨first, last, hops, hlast, hfirst⟩ := h
  rw [hops] at hcodes
  obtain ⟨codes', code, rest, rfl, hinit, hbecomes, hnil⟩ :=
    Position.exists_split_of_forall₂ hcodes.flip
  obtain rfl := List.forall₂_nil_right_iff.1 hnil
  obtain ⟨-, value, rfl⟩ | ⟨hkind, -⟩ := hbecomes.ends
  · -- no operation but the last is a terminator, so none before it becomes a return
    refine ⟨codes'.flatten, value, by simp, fun i hi => ?_⟩
    obtain ⟨code, hcode, hi⟩ := List.mem_flatten.1 hi
    obtain ⟨p, hp, hbecomes⟩ := Outcome.exists_of_mem_right hinit.flip hcode
    obtain ⟨hkind, -⟩ | ⟨-, hcode⟩ := hbecomes.ends
    · exact absurd hkind (hfirst p hp)
    · exact hcode i hi
  · rw [hkind] at hlast
    cases hlast

/-! ## Functions -/

/-- What stands for a value, if anything does; else a value that there is not. -/
def Building.image (b : Building) (v : ValueRef) : Operand :=
  (b.operands.lookup v).getD (.value "")

/-- What stands for a value that only one operand stands for is its image. -/
theorem Building.image_of_mem (h : (b.operands.map Prod.fst).Nodup) {e : ValueRef × Operand}
    (he : e ∈ b.operands) : b.image e.1 = e.2 := by
  obtain ⟨before, after, hsplit⟩ := List.append_of_mem he
  have hlookup : b.operands.lookup e.1 = some e.2 := by
    refine List.lookup_eq_some_iff.2 ⟨before, after, hsplit, fun p hp => ?_⟩
    rw [hsplit, List.map_append, List.map_cons] at h
    have hne := (List.nodup_append.1 h).2.2 p.1 (List.mem_map_of_mem hp) e.1 List.mem_cons_self
    simpa using hne.symm
  rw [image, hlookup, Option.getD_some]

/-- A value is used after the parameters and the instructions before have defined it. -/
theorem defined_of_counts {n m : Nat} {is : List Instruction} (h : Counts n is m)
    {before after : List Instruction} {i : Instruction} (hsplit : is = before ++ i :: after)
    {name : String} (hname : .value name ∈ i.action.operands) :
    (∃ k < n, toString k = name) ∨ ∃ j ∈ before, j.result = some name := by
  subst hsplit
  obtain ⟨k, hcounts, hbelow⟩ := h.of_append
  obtain ⟨j, hj, rfl⟩ := hbelow _ hname name rfl
  -- the numbers of the parameters come first
  obtain hlt | hle := Nat.lt_or_ge j n
  · exact .inl ⟨j, hlt, rfl⟩
  · have hmem : toString j ∈ before.filterMap (·.result) := by
      rw [hcounts.results]
      refine List.mem_map_of_mem (List.mem_range'_1.2 ⟨hle, ?_⟩)
      have := hcounts.le
      omega
    exact .inr (List.mem_filterMap.1 hmem)

theorem names_parametersOf (args : List (ValueRef × DataType)) :
    (parametersOf args).filterMap (·.name) = (List.range args.length).map toString := by
  rw [parametersOf, List.filterMap_map, List.range_eq_range', ← List.zipIdx_map_snd 0 args,
    List.map_map]
  exact congrFun List.filterMap_eq_map' _

/-- The numbers of the arguments, and after them those of the instructions. -/
theorem values_eq {f : Function} {args : List (ValueRef × DataType)} {m : Nat}
    (hparameters : f.parameters = parametersOf args)
    (h : Counts args.length f.instructions m) : f.values = (List.range m).map toString := by
  rw [Function.values, hparameters, names_parametersOf, h.results, ← List.map_append,
    List.range_eq_range', List.range_eq_range']
  have hjoin := List.range'_append_1 (s := 0) (m := args.length) (n := m - args.length)
  rw [Nat.zero_add, Nat.add_sub_cancel' h.le] at hjoin
  rw [hjoin]

theorem Building.exists_image (h : ∀ p, (v, p) ∈ b.operands → ∃ name, p = .value name) :
    ∃ name, b.image v = .value name := by
  rw [image]
  cases hp : b.operands.lookup v with
  | none => exact ⟨"", rfl⟩
  | some p => exact h p (Position.mem_of_lookup hp)

theorem not_mem_args (hc : ctx.Coherent) {block : BlockRef} (hv : v ∈ ctx.results o) :
    v ∉ ctx.args block := by
  intro harg
  obtain ⟨n, hn⟩ := (mem_results_iff hc).1 hv
  obtain ⟨k, hk⟩ := (mem_args_iff hc).1 harg
  rw [hn] at hk
  cases hk

section Started

variable {args : List (ValueRef × DataType)}

theorem keys_started : (started args).operands.map Prod.fst = (args.map Prod.fst).reverse := by
  rw [started, List.map_reverse, List.map_map, ← List.zipIdx_map_fst 0 args, List.map_map,
    List.zipIdx_map_fst]
  rfl

theorem bounded_started : (started args).Bounded := by
  intro e he
  obtain ⟨a, ha, rfl⟩ := mem_operands_started.1 he
  have hlt := (List.mem_zipIdx ha).2.1
  rw [Nat.zero_add] at hlt
  exact (Operand.below_value a.2).mono hlt

variable {block : BlockRef} (hargs : args.map Prod.fst = (ctx.args block).take args.length)
include hargs

theorem mem_args_of_started {e : ValueRef × Operand} (he : e ∈ (started args).operands) :
    e.1 ∈ ctx.args block := by
  obtain ⟨a, ha, rfl⟩ := mem_operands_started.1 he
  have hmem : a.1.1 ∈ args.map Prod.fst := List.mem_map_of_mem (List.fst_mem_of_mem_zipIdx ha)
  exact List.mem_of_mem_take (hargs ▸ hmem)

variable (h : Translates ctx (ctx.opsOf block) (started args) b new codes) (hc : ctx.Coherent)
include h hc

namespace Translates

/-- One operand stands for each value: arguments are no results, and the results of different
    operations are different. -/
theorem nodup_operands : (b.operands.map Prod.fst).Nodup := by
  have hstarted : ((started args).operands.map Prod.fst).Nodup := by
    rw [keys_started, hargs]
    exact List.nodup_reverse.2 ((hc.args_nodup block).sublist (List.take_sublist _ _))
  rw [h.operands, List.map_append]
  refine List.nodup_append.2 ⟨h.nodup, hstarted, ?_⟩
  rintro v hv _ hw rfl
  obtain ⟨e, he, rfl⟩ := List.mem_map.1 hv
  obtain ⟨p, -, hresult, -⟩ := h.origin e he
  obtain ⟨e', he', heq⟩ := List.mem_map.1 hw
  exact not_mem_args hc hresult (heq ▸ mem_args_of_started hargs he')

theorem image_eq {e : ValueRef × Operand} (he : e ∈ b.operands) : b.image e.1 = e.2 :=
  b.image_of_mem (h.nodup_operands hargs hc) he

omit hargs in
/-- The images of arguments are values. -/
theorem image_argument (hv : v ∈ ctx.args block) : ∃ name, b.image v = .value name := by
  refine b.exists_image fun p hp => ?_
  rw [h.operands] at hp
  obtain hp | hp := List.mem_append.1 hp
  · obtain ⟨o, -, hresult, -⟩ := h.origin _ hp
    exact absurd hv (not_mem_args hc hresult)
  · obtain ⟨a, -, heq⟩ := mem_operands_started.1 hp
    exact ⟨_, (Prod.mk.inj heq).2.symm⟩

/-- The images of results are values, but for those of constants. -/
theorem image_result (hkind : ctx.kindOf o ≠ .const) (hv : v ∈ ctx.results o) :
    ∃ name, b.image v = .value name := by
  refine b.exists_image fun p hp => ?_
  rw [h.operands] at hp
  obtain hp | hp := List.mem_append.1 hp
  · obtain ⟨p, -, hresult, hnamed⟩ := h.origin _ hp
    exact hnamed (eq_of_mem_results hc hv hresult ▸ hkind)
  · exact absurd (mem_args_of_started hargs hp) (not_mem_args hc hv)

/-- The parameters are the images of the first arguments. -/
theorem image_parameters : List.Forall₂ (fun v p => some (b.image v) = p.name.map .value)
    ((ctx.args block).take args.length) (parametersOf args) := by
  have htake : (ctx.args block).take args.length = args.zipIdx.map (Prod.fst ∘ Prod.fst) := by
    rw [← hargs, ← List.map_map, List.zipIdx_map_fst]
  rw [htake, parametersOf, List.forall₂_map_left_iff, List.forall₂_map_right_iff,
    List.forall₂_same]
  intro a ha
  have hmem : (a.1.1, Operand.value (toString a.2)) ∈ b.operands := by
    rw [h.operands]
    exact List.mem_append_right _ (mem_operands_started.2 ⟨a, ha, rfl⟩)
  exact congrArg some (h.image_eq hargs hc hmem)

/-- From the arguments and the operations to the function. -/
theorem renders {f : Function} (hends : ctx.EndsWell block)
    (hparameters : f.parameters = parametersOf args)
    (hblocks : f.blocks = [⟨"entry", b.instructions⟩]) : f.Renders ctx block b.image := by
  have himage : ∀ e ∈ b.operands, b.image e.1 = e.2 := fun e he => h.image_eq hargs hc he
  have hinstructions : f.instructions = codes.flatten := by
    rw [Function.instructions, hblocks, List.flatMap_singleton, h.instructions]
    rfl
  have hlength : f.parameters.length = args.length := by
    rw [hparameters, parametersOf, List.length_map, List.length_zipIdx]
  have hcounts : Counts args.length f.instructions b.next := hinstructions ▸ h.counts
  refine ⟨fun v hv => h.image_argument hc hv, ?_,
    fun o _ hkind v hv => h.image_result hargs hc hkind hv, ⟨codes, h.becomes _ himage, ?_⟩, ?_,
    ?_, ?_⟩
  · rw [hlength, hparameters]
    exact h.image_parameters hargs hc
  · rw [hblocks, h.instructions]
    rfl
  · have hvalues := values_eq hparameters hcounts
    rw [hvalues, List.length_map, List.length_range]
  · intro before i after hsplit name hname
    refine (defined_of_counts hcounts hsplit hname).imp_left ?_
    rintro ⟨k, hk, rfl⟩
    refine List.mem_filterMap.1 ?_
    rw [hparameters, names_parametersOf]
    exact List.mem_map_of_mem (List.mem_range.2 hk)
  · rw [hinstructions]
    exact ends_of_endsWell hends (h.becomes _ himage)

end Translates

end Started

theorem map_fst_zip_args {block : BlockRef} {types : List DataType} :
    ((ctx.args block).zip types).map Prod.fst =
      (ctx.args block).take ((ctx.args block).zip types).length := by
  rw [List.length_zip]
  conv_lhs => rw [List.zip_eq_zip_take_min]
  exact List.map_fst_zip (by simp)

/-- A function is what its operation becomes. -/
theorem Lowers.depicts {f : Function} {needed : List Function} (h : Lowers ctx op f needed)
    (hc : ctx.Coherent) (hshaped : ctx.Shaped op) (hterminated : ctx.Terminated op)
    (hbody : ∀ o ∈ ctx.childrenOf op, ctx.Shaped o) : Depicts ctx op f := by
  obtain ⟨t, ts, types, r, region, -, -, -, hat, hregion, hlowers⟩ := h.body
  obtain ⟨-, hkind⟩ := kind_eq_ok h.kind
  have hfits := hshaped.fits _ (by rw [hkind]; rfl)
  obtain ⟨r', hr'⟩ : ∃ r', ctx.regionsOf op = [r'] :=
    List.length_eq_one_iff.1 hfits.regions.length_eq
  have hr : r ∈ ctx.regionsOf op := List.mem_of_getElem? (regionAt_eq_ok hat)
  obtain rfl := List.mem_singleton.1 (hr' ▸ hr)
  have hblocks : ctx.blocksOf r = region.blocks := readRegion_of_region hregion _ _
  refine ⟨hkind, h.functionName, r, hr', ?_⟩
  generalize region.blocks = blocks at hlowers hblocks
  cases hlowers with
  | declaration _ hnone => exact .inl ⟨hblocks, hnone⟩
  | @definition block b hrun hcode =>
    obtain ⟨hparameters, hops⟩ := lowers_of_gives_block hrun
    have hblock : block ∈ ctx.blocksOf r := hblocks ▸ List.mem_singleton_self block
    have hstarted : (started ((ctx.args block).zip types)).Bounded := bounded_started
    obtain ⟨new, codes, htranslates⟩ := hops.translates hc (hc.ops.nodup block)
      (fun o ho => hbody o (List.mem_flatMap.2 ⟨r, hr, List.mem_flatMap.2 ⟨block, hblock, ho⟩⟩))
      hstarted
    exact .inr ⟨block, _, hblocks, htranslates.renders map_fst_zip_args hc
      (hterminated (by rw [hkind]; rfl) r hr block hblock) hparameters hcode⟩

end Offload.Device
