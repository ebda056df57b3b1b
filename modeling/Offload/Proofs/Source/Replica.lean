import Offload.Proofs.Ir.Replica
import Offload.Proofs.Pattern.Success
import Offload.Proofs.Source.Accounted
import Offload.Proofs.Source.Isomorphic

/-!
# Replicas are printed alike

A replica is quoted as what it replicates: the same names are given out, in the same order, to
the values as they are renamed. One run *follows* the other in this sense (`Quote.Follows`),
and so the terms are equal, or the faults are. All it takes is the invariant of the arena
(`Context.Accounted`): an argument has the type that its block declares, and an operand is a
value. Otherwise a handle that names nothing yet could come to name something in the replica.
-/

namespace Offload

open Context

namespace Quote

/-! ## What the terms of types depend on -/

section Tables

variable {ctx ctx' : Context}

mutual

theorem value_congr (hpaths : ctx'.paths = ctx.paths) (f : TypeRef → Except Fault TypeTerm) :
    ∀ a, value ctx' f a = value ctx f a
  | .atom x => by
    have hpath : ctx'.path = ctx.path := by
      funext p
      rw [path, path, hpaths]
    cases x with
    | location l => rw [value, value, hpath]
    | _ => rfl
  | .list as => by rw [value, value, values_congr hpaths f as]

theorem values_congr (hpaths : ctx'.paths = ctx.paths) (f : TypeRef → Except Fault TypeTerm) :
    ∀ as, values ctx' f as = values ctx f as
  | [] => rfl
  | a :: as => by rw [values, values, value_congr hpaths f a, values_congr hpaths f as]

end

variable (htypes : ctx'.types = ctx.types) (hpaths : ctx'.paths = ctx.paths)

include hpaths

theorem entries_congr (f : TypeRef → Except Fault TypeTerm) : entries ctx' f = entries ctx f := by
  funext as
  simp only [entries, value_congr hpaths]

include htypes

theorem type_congr : type ctx' = type ctx := by
  have hwithin (n : Nat) : typeWithin ctx' n = typeWithin ctx n := by
    induction n with
    | zero => rfl
    | succ n ih =>
      funext t
      have htype : ctx'.type t = ctx.type t := by rw [Context.type, Context.type, htypes]
      rw [typeWithin_succ, typeWithin_succ, ih, htype, entries_congr hpaths]
  funext t
  rw [type, type, hwithin, htypes]

end Tables

end Quote

/-! ## Renamed values -/

/-- The names of values, as names of what the values are renamed to. -/
def Naming.rename (ν : Naming) (σ : ValueRef → ValueRef) : Naming :=
  { ν with names := ν.names.map fun e => (σ e.1, e.2) }

theorem lookup_rename {l : List (ValueRef × Nat)} {σ : ValueRef → ValueRef} {v : ValueRef}
    (hσ : ∀ e ∈ l, σ v = σ e.1 → v = e.1) :
    (l.map fun e => (σ e.1, e.2)).lookup (σ v) = l.lookup v := by
  induction l with
  | nil => rfl
  | cons e l ih =>
    obtain ⟨he, hl⟩ := List.forall_mem_cons.1 hσ
    rw [List.map_cons, List.lookup_cons, List.lookup_cons, ih hl]
    by_cases hv : v = e.1
    · rw [hv, beq_self_eq_true, beq_self_eq_true]
    · rw [beq_false_of_ne hv, beq_false_of_ne fun h => hv (he h)]

namespace Quote

/-- A run of quoting does what another one does, but with values renamed. Values that get a
    name have a property. -/
def Follows {α : Type} (p : ValueRef → Prop) (σ : ValueRef → ValueRef) (x x' : QuoteM α) : Prop :=
  ∀ ν : Naming, (∀ e ∈ ν.names, p e.1) →
    x'.run (ν.rename σ) = (fun y => (y.1, y.2.rename σ)) <$> x.run ν ∧
      ∀ a ν', x.run ν = .ok (a, ν') → ∀ e ∈ ν'.names, p e.1

namespace Follows

variable {α β γ : Type} {p : ValueRef → Prop} {σ : ValueRef → ValueRef}

theorem bind {x x' : QuoteM α} {f f' : α → QuoteM β} (hx : Follows p σ x x')
    (hf : ∀ a, Follows p σ (f a) (f' a)) : Follows p σ (x >>= f) (x' >>= f') := by
  intro ν hν
  obtain ⟨heq, hnames⟩ := hx ν hν
  rw [StateT.run_bind, StateT.run_bind, heq]
  cases hrun : x.run ν with
  | error e => exact ⟨rfl, fun _ _ h => by cases h⟩
  | ok y => exact hf y.1 y.2 (hnames y.1 y.2 hrun)

/-- What leaves the names as they are. -/
theorem lift (x : Except Fault α) : Follows p σ (x : QuoteM α) (x : QuoteM α) := by
  intro ν hν
  cases x with
  | error e => exact ⟨rfl, fun _ _ h => by cases h⟩
  | ok a =>
    refine ⟨rfl, fun _ _ h => ?_⟩
    cases h
    exact hν

theorem pure (a : α) : Follows p σ (Pure.pure a) (Pure.pure a) := lift (.ok a)

/-- A look-up before the other steps, which gives different rows. -/
theorem lift_bind {x x' : Except Fault γ} {a a' : γ} {f f' : γ → QuoteM β} (hx : x = .ok a)
    (hx' : x' = .ok a') (hf : Follows p σ (f a) (f' a')) :
    Follows p σ ((x : QuoteM γ) >>= f) ((x' : QuoteM γ) >>= f') := by
  rw [hx, hx']
  exact hf

theorem mapM {δ : Type} {r : γ → δ → Prop} {l : List γ} {l' : List δ} {f : γ → QuoteM α}
    {f' : δ → QuoteM α} (hl : List.Forall₂ r l l')
    (hf : ∀ c c', r c c' → Follows p σ (f c) (f' c')) :
    Follows p σ (l.mapM f) (l'.mapM f') := by
  induction hl with
  | nil =>
    rw [List.mapM_nil, List.mapM_nil]
    exact .pure []
  | cons hc _ ih =>
    rw [List.mapM_cons, List.mapM_cons]
    exact (hf _ _ hc).bind fun a => ih.bind fun as => .pure (a :: as)

/-- Values that are dealt with one by one, as they are renamed. -/
theorem mapM_map {l : List ValueRef} {f f' : ValueRef → QuoteM α}
    (hf : ∀ v ∈ l, Follows p σ (f v) (f' (σ v))) :
    Follows p σ (l.mapM f) ((l.map σ).mapM f') := by
  refine mapM (r := fun v v' => v ∈ l ∧ v' = σ v) ?_ fun v v' ⟨hv, hv'⟩ => hv' ▸ hf v hv
  rw [List.forall₂_map_right_iff, List.forall₂_same]
  exact fun v hv => ⟨hv, rfl⟩

theorem define {v : ValueRef} (hv : p v) : Follows p σ (define v) (define (σ v)) := by
  intro ν hν
  refine ⟨rfl, fun _ _ h => ?_⟩
  cases h
  exact List.forall_mem_cons.2 ⟨hv, hν⟩

theorem nameOf (hσ : ∀ v w, p v → p w → σ v = σ w → v = w) {v : ValueRef} (hv : p v) :
    Follows p σ (nameOf v) (nameOf (σ v)) := by
  intro ν hν
  refine ⟨?_, fun _ _ h => ?_⟩
  · have hlookup := lookup_rename (l := ν.names) fun e he => hσ v e.1 hv (hν e he)
    change Except.ok (_, ν.rename σ) = Except.ok (_, ν.rename σ)
    rw [Naming.rename, hlookup]
  · cases h
    exact hν

theorem nextLabel : Follows p σ nextLabel nextLabel := by
  intro ν hν
  refine ⟨rfl, fun _ _ h => ?_⟩
  cases h
  exact hν

end Follows

end Quote

/-! ## In step with a replica -/

namespace Context

/-- Two contexts with the same types, in which the values of one are given to the other, each
    to another one. -/
structure Carries (ctx : Context) (σ : ValueRef → ValueRef) (ctx' : Context) : Prop where
  accounted : ctx.Accounted
  accounted' : ctx'.Accounted
  types : ctx'.types = ctx.types
  paths : ctx'.paths = ctx.paths
  injective : ∀ v w, ctx.HasValue v → ctx.HasValue w → σ v = σ w → v = w

end Context

section Replica

open Quote

variable {ctx ctx' : Context} {σ : ValueRef → ValueRef} {replica : OpRef → OpRef → Prop}

theorem BlockReplica.args {b b' : BlockRef} (hb : BlockReplica ctx σ ctx' replica b b') :
    ctx'.args b' = (ctx.args b).map σ ∧ ctx'.argTypesOf b' = ctx.argTypesOf b := by
  obtain ⟨row, ops, parent, hrow, hrow', -⟩ := hb.row
  rw [args_eq_readBlock, args_eq_readBlock, readBlock_of_block hrow, readBlock_of_block hrow',
    argTypesOf, argTypesOf, readBlock_of_block hrow, readBlock_of_block hrow']
  exact ⟨rfl, rfl⟩

theorem isBare_replica {bs bs' : List BlockRef}
    (h : List.Forall₂ (BlockReplica ctx σ ctx' replica) bs bs') :
    isBare ctx' bs' = isBare ctx bs := by
  cases h with
  | nil => rfl
  | cons hb hrest =>
    cases hrest with
    | nil => rw [isBare, isBare, hb.args.1, List.isEmpty_map]
    | cons _ _ => rfl

variable (h : ctx.Carries σ ctx')

include h

/-- The copy of an argument has the type of the argument. -/
theorem BlockReplica.type_eq {b b' : BlockRef} (hb : BlockReplica ctx σ ctx' replica b b')
    {v : ValueRef} (hv : v ∈ ctx.args b) : ∃ row row', ctx.value v = .ok row ∧
      ctx'.value (σ v) = .ok row' ∧ row'.type = row.type := by
  obtain ⟨hargs, htypes⟩ := hb.args
  obtain ⟨n, hn⟩ := List.mem_iff_getElem?.1 hv
  have hn' : (ctx'.args b')[n]? = some (σ v) := by rw [hargs, List.getElem?_map, hn]; rfl
  have hrow {c : Context} {w : ValueRef} {d : ValueDef} (hd : c.sourceOf w = some d) :
      ∃ row, c.value w = .ok row := by
    obtain ⟨row, hrow, -⟩ := Option.map_eq_some_iff.1 hd
    exact ⟨row, value_eq_ok.2 hrow⟩
  have hc := h.accounted.coherent
  have hc' := h.accounted'.coherent
  obtain ⟨row, hvalue⟩ := hrow ((hc.values.argument_iff b n v).1 hn)
  obtain ⟨row', hvalue'⟩ := hrow ((hc'.values.argument_iff b' n (σ v)).1 hn')
  have htype := h.accounted.typed.argTypesOf hc hn hvalue
  have htype' := h.accounted'.typed.argTypesOf hc' hn' hvalue'
  rw [htypes, htype] at htype'
  exact ⟨row, row', hvalue, hvalue', (Option.some.inj htype').symm⟩

theorem BlockReplica.label_follows {b b' : BlockRef}
    (hb : BlockReplica ctx σ ctx' replica b b') :
    Follows ctx.HasValue σ (label ctx b) (label ctx' b') := by
  rw [label, label, hb.args.1, type_congr h.types h.paths]
  refine Follows.nextLabel.bind fun name => ?_
  refine (Follows.mapM_map fun v hv => ?_).bind fun args => .pure _
  obtain ⟨row, row', hrow, hrow', htype⟩ := hb.type_eq h hv
  have hvalue : ctx.HasValue v := (Array.getElem?_eq_some_iff.1 (value_eq_ok.1 hrow)).1
  refine (Follows.define hvalue).bind fun name => .lift_bind hrow hrow' ?_
  rw [htype]
  exact (Follows.lift _).bind fun t => .pure _

theorem RegionReplica.follows {op op' : OpRef → QuoteM OpTerm} {r r' : RegionRef}
    (hr : RegionReplica ctx σ ctx' replica r r')
    (hop : ∀ o o', replica o o' → Follows ctx.HasValue σ (op o) (op' o')) :
    Follows ctx.HasValue σ (Quote.region ctx op r) (Quote.region ctx' op' r') := by
  obtain ⟨row, blocks, parent, hrow, hrow', hblocks⟩ := hr.row
  rw [Quote.region, Quote.region]
  refine .lift_bind hrow hrow' ?_
  dsimp only
  rw [isBare_replica hblocks]
  refine (Follows.mapM hblocks fun b b' hb => ?_).bind fun bs => .pure _
  obtain ⟨block, ops, parent, hblock, hblock', hops⟩ := hb.row
  have hfill (l : Option Label) : Follows ctx.HasValue σ
      (return BlockTerm.mk l (← (← ctx.block b).ops.mapM op))
      (return BlockTerm.mk l (← (← ctx'.block b').ops.mapM op')) :=
    .lift_bind hblock hblock' ((Follows.mapM hops hop).bind fun os => .pure _)
  split
  · exact hfill none
  · rw [map_eq_pure_bind, map_eq_pure_bind, bind_assoc, bind_assoc]
    exact (hb.label_follows h).bind fun l => hfill (some l)

/-- The line of a replica. -/
theorem head_follows {o o' : OpRef} {row : Operation} {regions : List RegionRef}
    {parent : Option BlockRef} (hrow : ctx.op o = .ok row)
    (hrow' : ctx'.op o' = .ok { row with
      operands := row.operands.map σ, results := row.results.map σ, regions, parent,
      erased := false }) :
    Follows ctx.HasValue σ (head ctx o) (head ctx' o') := by
  have hresults : ctx'.results o' = (ctx.results o).map σ := by
    rw [results_eq_readOp, results_eq_readOp, readOp_of_op hrow, readOp_of_op hrow']
  have hoperands (v : ValueRef) (hv : v ∈ row.operands) : ctx.HasValue v :=
    h.accounted.operand o v (by rwa [operandsOf, readOp_of_op hrow])
  rw [head_eq, head_eq, hresults, type_congr h.types h.paths, entries_congr h.paths]
  refine (Follows.mapM_map fun v hv => .define ?_).bind fun names => .lift_bind hrow hrow' ?_
  · obtain ⟨n, hn⟩ := (mem_results_iff h.accounted.coherent).1 hv
    exact index_lt_of_sourceOf hn
  refine (Follows.mapM_map fun v hv => .nameOf h.injective (hoperands v hv)).bind fun operands => ?_
  refine (Follows.lift _).bind fun es => ?_
  refine (Follows.mapM (List.forall₂_same.2 fun _ _ => rfl) fun t t' ht => ?_).bind
    fun types => .pure _
  exact ht ▸ .lift _

/-- A replica is quoted in step with what it replicates, if there are as many levels as
    operations are nested. -/
theorem Replica.follows {n : Nat} {o o' : OpRef} (hr : Replica ctx σ ctx' n o o') {m m' : Nat}
    (hm : n ≤ m) (hm' : n ≤ m') :
    Follows ctx.HasValue σ (Quote.opWithin ctx m o) (Quote.opWithin ctx' m' o') := by
  induction n generalizing o o' m m' with
  | zero => exact hr.elim
  | succ n ih =>
    obtain ⟨-, row, regions, parent, hrow, hrow', hregions⟩ := hr
    obtain ⟨m, rfl⟩ := Nat.exists_eq_add_one.2 (Nat.zero_lt_of_lt hm)
    obtain ⟨m', rfl⟩ := Nat.exists_eq_add_one.2 (Nat.zero_lt_of_lt hm')
    rw [Quote.opWithin, Quote.opWithin]
    refine (head_follows h hrow hrow').bind fun head => .lift_bind hrow hrow' ?_
    refine (Follows.mapM hregions fun r r' hr => ?_).bind fun rs => .pure _
    exact hr.follows h fun p p' hp =>
      ih hp (Nat.le_of_succ_le_succ hm) (Nat.le_of_succ_le_succ hm')

/-- A replica is printed as what it replicates, or fails as it does. -/
theorem Replica.print_eq {n : Nat} {o o' : OpRef} (hr : Replica ctx σ ctx' n o o')
    (hn : n ≤ ctx.ops.size + 1) (hn' : n ≤ ctx'.ops.size + 1) : ctx'.print o' = ctx.print o := by
  have hquote : ctx'.quote o' = ctx.quote o := by
    obtain ⟨heq, -⟩ := hr.follows h hn hn' {} fun e he => absurd he List.not_mem_nil
    rw [quote, quote, StateT.run'_eq, StateT.run'_eq]
    refine (congrArg (Prod.fst <$> ·) heq).trans ?_
    cases (Quote.opWithin ctx (ctx.ops.size + 1) o).run {} <;> rfl
  rw [print, print, hquote]

end Replica

namespace Context

variable {ctx ctx' : Context} {o copy : OpRef} {map : ValueMap}

/-! ## Duplicates -/

theorem Duplicates.carries (h : ctx.Duplicates o ctx' map copy) (hv : ctx.Accounted)
    (hv' : ctx'.Accounted) : ctx.Carries map.apply ctx' where
  accounted := hv
  accounted' := hv'
  types := h.types
  paths := h.paths
  injective v w hvv hvw e := by
    -- a value of the tree goes where there was none
    have hne {v w : ValueRef} (hv : ctx.DefinedWithin o v) (hw : ¬ctx.DefinedWithin o w)
        (hvw : ctx.HasValue w) : map.apply v ≠ map.apply w := fun e => by
      have hfresh := h.fresh v hv
      rw [e, h.shared w hw] at hfresh
      exact absurd hvw (Nat.not_lt.2 hfresh)
    by_cases hdv : ctx.DefinedWithin o v <;> by_cases hdw : ctx.DefinedWithin o w
    · exact h.injective v w ((h.keys v).2 hdv) ((h.keys w).2 hdw) e
    · exact absurd e (hne hdv hdw hvw)
    · exact absurd e.symm (hne hdw hdv hvv)
    · rwa [h.shared v hdv, h.shared w hdw] at e

/-- An operation can be cloned, and the clone duplicates it. If the context is accounted for then
    it stays so, and the clone is printed as the operation. -/
theorem Sound.cloneOp_replicates (h : ctx.Sound) (ho : ctx.HasOp o) (hs : ctx.Scoped o) :
    ∃ ctx' map copy, ctx.cloneOp o .empty = .ok (ctx', map, copy) ∧
      ctx.Duplicates o ctx' map copy ∧
      (ctx.Accounted → ctx'.Accounted ∧ ctx'.print copy = ctx.print o) := by
  obtain ⟨ctx', map, copy, hrun⟩ := h.cloneOp_ok ho .empty
  have hduplicates := h.cloneOp_duplicates hs hrun
  refine ⟨ctx', map, copy, hrun, hduplicates, fun hv => ?_⟩
  have hv' := (Takes.cloneOp hrun).accounted hv (by simp [ValueMap.empty])
  refine ⟨hv', hduplicates.replica.print_eq (hduplicates.carries hv hv') le_rfl ?_⟩
  have hsize : ctx.ops.size ≤ ctx'.ops.size := Nat.le_of_not_lt fun hlt =>
    Nat.lt_irrefl _ (hduplicates.extends.hasOp (o := ⟨ctx'.ops.size⟩) hlt)
  exact Nat.succ_le_succ hsize

/-- Where the check of scoping finds nothing, everything is in scope where it is used. -/
theorem Sound.scoped_of_check {root : OpRef} (h : ctx.Sound) (hroot : ctx.HasOp root)
    (hcheck : ctx.checkScoping root = .ok []) (ho : ctx.Within o root) : ctx.Scoped o :=
  fun p hp v hv _ => (h.checkScoping_eq_nil hroot).1 hcheck p (hp.trans ho) v hv

/-- In a block with an argument, an operation uses the argument and a value from outside, and
    another one uses its result and that value. -/
def wrapped : String :=
  "func.func @f \x7btype = func.fn(core.nil, core.i32)\x7d \x7b
  ^bb0(%x: core.i32):
    test.wrapper \x7b
      ^bb1(%i: core.i32):
        %a = test.first %x, %i : core.i32
        test.second %a, %x
    \x7d
    func.return
\x7d"

set_option maxRecDepth 100000 in
/-- The wrapper is cloned. The value from outside gets two more uses, in the copies of the
    operations that use it. -/
theorem cloneOp_replicates_wrapped : ∃ root ctx ctx' map copy,
    Context.empty.read "f" wrapped = (.ok root, ctx) ∧ ctx.Sound ∧ ctx.HasOp ⟨2⟩ ∧
      ctx.Scoped ⟨2⟩ ∧ ctx.cloneOp ⟨2⟩ .empty = .ok (ctx', map, copy) ∧
      ctx.Duplicates ⟨2⟩ ctx' map copy ∧ ctx'.Accounted ∧ ctx'.print copy = ctx.print ⟨2⟩ ∧
      map = ⟨[(⟨2⟩, ⟨4⟩), (⟨1⟩, ⟨3⟩)]⟩ ∧
      ctx'.uses.get ⟨0⟩ = ctx.uses.get ⟨0⟩ ++ [⟨⟨5⟩, 0⟩, ⟨⟨6⟩, 1⟩] := by
  have hreads : Build.reads "f" wrapped fun root ctx =>
      decide ((ctx.checkScoping root).toOption.map (·.length) = some 0) &&
      decide ((ctx.cloneOp ⟨2⟩ .empty).toOption.map
        (fun cloned : Context × ValueMap × OpRef => (cloned.2.1, cloned.1.uses.get ⟨0⟩)) =
          some (⟨[(⟨2⟩, ⟨4⟩), (⟨1⟩, ⟨3⟩)]⟩, ctx.uses.get ⟨0⟩ ++ [⟨⟨5⟩, 0⟩, ⟨⟨6⟩, 1⟩])) &&
      decide (ctx.HasOp ⟨2⟩) := Build.reads_ofList (by decide +kernel)
  obtain ⟨root, ctx, hread, htest⟩ := Build.exists_of_reads hreads
  simp only [Bool.and_eq_true, decide_eq_true_eq, Option.map_eq_some_iff] at htest
  obtain ⟨⟨⟨findings, hcheck, hlength⟩, ⟨ctx₁, map₁, copy₁⟩, hrun₁, htold⟩, ho⟩ := htest
  obtain rfl := List.eq_nil_of_length_eq_zero hlength
  have hcheck := Outcome.eq_ok_of_toOption hcheck
  obtain ⟨hsound, hroot, -, -⟩ := Build.read_built hread
  have hscoped := hsound.scoped_of_check hroot hcheck (Build.read_within hread ho)
  obtain ⟨ctx', map, copy, hrun, hduplicates, hprint⟩ := hsound.cloneOp_replicates ho hscoped
  cases (Outcome.eq_ok_of_toOption hrun₁).symm.trans hrun
  obtain ⟨hmap, huses⟩ := Prod.mk.inj htold
  obtain ⟨haccounted, hprint⟩ := hprint (accounted_of_read hread hcheck)
  exact ⟨root, ctx, ctx₁, map₁, copy₁, hread, hsound, ho, hscoped, hrun, hduplicates, haccounted,
    hprint, hmap, huses⟩

end Context

end Offload
