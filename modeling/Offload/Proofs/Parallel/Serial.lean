import Offload.Proofs.Parallel.Invariant

/-!
# Serial elision

The serial elision of a program is what remains of it without parallelism: in the place
of every parallel region stand the operations of its body without the last one, and
barriers are left out (`serial`). Values have names in it, which may be any, so two
programs can be compared up to the values that they use.

In the elision of an operation only the *kept* operations of its blocks have a part
(`kept`). Elisions of lists of them are said to be the same, after a change, by
`Elided.Same`.
-/

namespace Offload

/-- A block of an elision, with operations `β`. -/
structure Serial.Block (α β : Type) where
  args : List α
  types : List TypeRef
  ops : List β

/-- An operation of an elision, with values named by `α`. -/
inductive Serial (α : Type)
  | op (kind : OpKind) (attributes : Attributes) (operands results : List α)
      (types : List TypeRef) (regions : List (List (Serial.Block α (Serial α))))

namespace Context

variable {α : Type}

/-- The elision of a block, given that of operations. -/
def serialBlock (ctx : Context) (name : ValueRef → α) (op : OpRef → Except Fault (List (Serial α)))
    (b : BlockRef) : Except Fault (Serial.Block α (Serial α)) := do
  let block ← ctx.block b
  return ⟨block.args.map name, block.argTypes, ← block.ops.flatMapM op⟩

/-- The elision of an operation in which operations are nested at most `n` deep. -/
def serialWithin (ctx : Context) (name : ValueRef → α) :
    (n : Nat) → OpRef → Except Fault (List (Serial α))
  | 0, _ => throw .bottomless
  | n + 1, o => do
    let row ← ctx.op o
    if row.kind = .barrier then return []
    else if row.kind = .parallel then
      (← ctx.block (← ctx.blockAt o 0)).ops.dropLast.flatMapM (serialWithin ctx name n)
    else
      let regions ← row.regions.mapM fun r => do
        (← ctx.region r).blocks.mapM (ctx.serialBlock name (serialWithin ctx name n))
      return [.op row.kind row.attributes (row.operands.map name) (row.results.map name)
        row.resultTypes regions]

/-- The serial elision of an operation. -/
def serial (ctx : Context) (name : ValueRef → α) (o : OpRef) : Except Fault (List (Serial α)) :=
  ctx.serialWithin name (ctx.ops.size + 1) o

/-- The operations of a block that have a part in the elision. -/
def kept (ctx : Context) (b : BlockRef) : List OpRef :=
  if (ctx.holder b).any (ctx.kindOf · = .parallel) then (ctx.opsOf b).dropLast else ctx.opsOf b

/-! ## One level -/

/-- The elision of a block, given that of lists of operations. -/
structure BlockElision (ctx : Context) (name : ValueRef → α)
    (sub : List OpRef → List (Serial α) → Prop) (b : BlockRef)
    (block : Serial.Block α (Serial α)) : Prop where
  args : block.args = (ctx.args b).map name
  types : block.types = ctx.argTypesOf b
  ops : sub (ctx.kept b) block.ops

/-- The elision of an operation, given that of lists of operations. -/
inductive Elision (ctx : Context) (name : ValueRef → α)
    (sub : List OpRef → List (Serial α) → Prop) (o : OpRef) : List (Serial α) → Prop
  | barrier (hkind : ctx.kindOf o = .barrier) : Elision ctx name sub o []
  | parallel (hkind : ctx.kindOf o = .parallel) {r : RegionRef} {b : BlockRef}
      {l : List (Serial α)} (hr : (ctx.regionsOf o).head? = some r)
      (hb : (ctx.blocksOf r).head? = some b) (hl : sub (ctx.kept b) l) :
      Elision ctx name sub o l
  | op (hbarrier : ctx.kindOf o ≠ .barrier) (hparallel : ctx.kindOf o ≠ .parallel)
      {regions : List (List (Serial.Block α (Serial α)))}
      (hregions : List.Forall₂ (fun r blocks =>
        List.Forall₂ (BlockElision ctx name sub) (ctx.blocksOf r) blocks)
        (ctx.regionsOf o) regions) :
      Elision ctx name sub o [.op (ctx.kindOf o) (ctx.attributesOf o)
        ((ctx.operandsOf o).map name) ((ctx.results o).map name) (ctx.resultTypesOf o) regions]

variable {ctx ctx' : Context} {name name' : ValueRef → α} {n m : Nat} {o o' : OpRef}
  {os os' : List OpRef} {l l' : List (Serial α)} {sub sub' : List OpRef → List (Serial α) → Prop}

theorem kept_of_parallel {b : BlockRef} (hb : ctx.holder b = some o)
    (hkind : ctx.kindOf o = .parallel) : ctx.kept b = (ctx.opsOf b).dropLast := by
  rw [kept, hb]
  simp [hkind]

theorem kept_of_ne {b : BlockRef} (hb : ctx.holder b = some o)
    (hkind : ctx.kindOf o ≠ .parallel) : ctx.kept b = ctx.opsOf b := by
  rw [kept, hb]
  simp [hkind]

/-- The elision of operations in a row. -/
def Elided (ctx : Context) (name : ValueRef → α) (n : Nat) (os : List OpRef)
    (l : List (Serial α)) : Prop :=
  os.flatMapM (ctx.serialWithin name n) = .ok l

theorem serialBlock_eq_ok {b : BlockRef} {block : Serial.Block α (Serial α)}
    (hb : ctx.HasBlock b) (hholder : ctx.holder b = some o) (hkind : ctx.kindOf o ≠ .parallel) :
    ctx.serialBlock name (ctx.serialWithin name n) b = .ok block ↔
      BlockElision ctx name (ctx.Elided name n) b block := by
  obtain ⟨row, hrow⟩ := hasBlock_iff.1 hb
  have hargs : ctx.args b = row.args := by
    rw [args_eq_readBlock, readBlock_of_block hrow]
  have htypes : ctx.argTypesOf b = row.argTypes := readBlock_of_block hrow _ _
  have hkept : ctx.kept b = row.ops :=
    (kept_of_ne hholder hkind).trans (readBlock_of_block hrow _ _)
  simp only [serialBlock, hrow, Outcome.ok_bind, Outcome.bind_eq_ok, Outcome.pure_eq_ok]
  constructor
  · rintro ⟨ops, hops, rfl⟩
    exact ⟨by rw [hargs], htypes.symm, by rw [hkept]; exact hops⟩
  · intro h
    refine ⟨block.ops, by rw [← hkept]; exact h.ops, ?_⟩
    rw [← hargs, ← htypes, ← h.args, ← h.types]

theorem serialWithin_succ_iff (hc : ctx.Coherent) : ctx.serialWithin name (n + 1) o = .ok l ↔
    ctx.HasOp o ∧ Elision ctx name (ctx.Elided name n) o l := by
  by_cases ho : ctx.HasOp o
  · obtain ⟨row, hrow⟩ := hasOp_iff.1 ho
    have hread {β : Type} (f : Operation → β) (default : β) :
        ctx.readOp f default o = f row := readOp_of_op hrow f default
    have hkind : ctx.kindOf o = row.kind := hread (·.kind) _
    have hregions : ctx.regionsOf o = row.regions := hread (·.regions) _
    rw [serialWithin, hrow, Outcome.ok_bind, and_iff_right ho]
    by_cases hbarrier : row.kind = .barrier
    · rw [if_pos hbarrier, Outcome.pure_eq_ok]
      constructor
      · rintro rfl
        exact .barrier (hkind.trans hbarrier)
      · rintro (_ | ⟨hparallel, -⟩ | ⟨hne, -⟩)
        · rfl
        · rw [hkind, hbarrier] at hparallel
          exact absurd hparallel (by decide)
        · exact absurd (hkind.trans hbarrier) hne
    by_cases hparallel : row.kind = .parallel
    · rw [if_neg hbarrier, if_pos hparallel]
      simp only [Outcome.bind_eq_ok]
      constructor
      · rintro ⟨b, hb, block, hblock, hl⟩
        obtain ⟨r, hr, hb⟩ := blockAt_eq_ok hb
        have hmem : r ∈ ctx.regionsOf o := List.mem_of_getElem? hr
        refine .parallel (hkind.trans hparallel) (by rw [List.head?_eq_getElem?, hr]) hb ?_
        rw [kept_of_parallel (hc.holder_of_mem hmem (List.mem_of_head? hb))
          (hkind.trans hparallel), opsOf, readBlock_of_block hblock]
        exact hl
      · rintro (hne | ⟨-, hr, hb, hl⟩ | ⟨-, hne, -⟩)
        · exact absurd (hkind.symm.trans hne) hbarrier
        · have hmem := List.mem_of_head? hr
          obtain ⟨block, hblock⟩ := hasBlock_iff.1 (hc.hasBlock_of_mem (List.mem_of_head? hb))
          refine ⟨_, hc.blockAt_ok (by rwa [← List.head?_eq_getElem?]) hb, block, hblock, ?_⟩
          rw [kept_of_parallel (hc.holder_of_mem hmem (List.mem_of_head? hb))
            (hkind.trans hparallel), opsOf, readBlock_of_block hblock] at hl
          exact hl
        · exact absurd (hkind.trans hparallel) hne
    · rw [if_neg hbarrier, if_neg hparallel]
      have hne : ctx.kindOf o ≠ .parallel := fun e => hparallel (hkind.symm.trans e)
      have hblocks (regions : List (List (Serial.Block α (Serial α)))) :
          (row.regions.mapM fun r => do
            (← ctx.region r).blocks.mapM (ctx.serialBlock name (ctx.serialWithin name n))) =
            .ok regions ↔ List.Forall₂ (fun r blocks => List.Forall₂
              (BlockElision ctx name (ctx.Elided name n)) (ctx.blocksOf r) blocks)
              (ctx.regionsOf o) regions := by
        rw [Outcome.mapM_eq_ok, hregions]
        refine Position.forall₂_congr fun r hr blocks => ?_
        rw [← hregions] at hr
        obtain ⟨region, hregion⟩ := hasRegion_iff.1 (hc.hasRegion_of_mem hr)
        have hblocksOf : ctx.blocksOf r = region.blocks := readRegion_of_region hregion _ _
        rw [hregion, Outcome.ok_bind, Outcome.mapM_eq_ok, hblocksOf]
        refine Position.forall₂_congr fun b hb block => ?_
        rw [← hblocksOf] at hb
        exact serialBlock_eq_ok (hc.hasBlock_of_mem hb) (hc.holder_of_mem hr hb) hne
      have hresults : ctx.results o = row.results := by
        rw [results_eq_readOp, hread]
      simp only [Outcome.bind_eq_ok, Outcome.pure_eq_ok, hblocks]
      constructor
      · rintro ⟨regions, hregions, rfl⟩
        rw [← hkind, ← hresults, ← hread (·.attributes) {}, ← hread (·.operands) [],
          ← hread (·.resultTypes) []]
        exact .op (fun e => hbarrier (hkind.symm.trans e)) hne hregions
      · rintro (e | ⟨e, -⟩ | ⟨-, -, hregions⟩)
        · exact absurd (hkind.symm.trans e) hbarrier
        · exact absurd e hne
        · refine ⟨_, hregions, ?_⟩
          rw [← hkind, ← hresults, ← hread (·.attributes) {}, ← hread (·.operands) [],
            ← hread (·.resultTypes) []]
  · refine iff_of_false (fun h => ?_) fun h => ho h.1
    obtain ⟨row, hrow, -⟩ := Outcome.bind_eq_ok.1 h
    exact ho (hasOp_iff.2 ⟨row, hrow⟩)

/-- Operations that look the same, in two contexts, one level deep. -/
structure Alike (ctx : Context) (name : ValueRef → α)
    (sub : List OpRef → List (Serial α) → Prop) (ctx' : Context) (name' : ValueRef → α)
    (sub' : List OpRef → List (Serial α) → Prop) (o o' : OpRef) : Prop where
  kind : ctx'.kindOf o' = ctx.kindOf o
  attributes : ctx'.attributesOf o' = ctx.attributesOf o
  types : ctx'.resultTypesOf o' = ctx.resultTypesOf o
  results : (ctx'.results o').map name' = (ctx.results o).map name
  operands : (ctx'.operandsOf o').map name' = (ctx.operandsOf o).map name
  regions : List.Forall₂ (fun r r' => List.Forall₂ (fun b b' =>
    (ctx'.args b').map name' = (ctx.args b).map name ∧ ctx'.argTypesOf b' = ctx.argTypesOf b ∧
      ∀ l, sub (ctx.kept b) l → sub' (ctx'.kept b') l) (ctx.blocksOf r) (ctx'.blocksOf r'))
    (ctx.regionsOf o) (ctx'.regionsOf o')

theorem Elision.alike (h : Elision ctx name sub o l)
    (ha : Alike ctx name sub ctx' name' sub' o o') : Elision ctx' name' sub' o' l := by
  cases h with
  | barrier hkind => exact .barrier (ha.kind.trans hkind)
  | parallel hkind hr hb hl =>
    obtain ⟨r', hr', hblocks⟩ := Position.head?_of_forall₂ ha.regions hr
    obtain ⟨b', hb', -, -, hsub⟩ := Position.head?_of_forall₂ hblocks hb
    exact .parallel (ha.kind.trans hkind) hr' hb' (hsub _ hl)
  | @op hbarrier hparallel regions hregions =>
    rw [← ha.kind] at hbarrier hparallel
    rw [← ha.kind, ← ha.attributes, ← ha.operands, ← ha.results, ← ha.types]
    refine .op hbarrier hparallel (Position.forall₂_of_common ha.regions hregions
      fun r r' blocks hblocks hblocks' => Position.forall₂_of_common hblocks hblocks'
        fun b b' block hb hb' =>
          ⟨hb'.args.trans hb.1.symm, hb'.types.trans hb.2.1.symm, hb.2.2 _ hb'.ops⟩)

theorem Elision.imp (h : Elision ctx name sub o l) (hsub : ∀ os l, sub os l → sub' os l) :
    Elision ctx name sub' o l := by
  refine h.alike ⟨rfl, rfl, rfl, rfl, rfl, ?_⟩
  exact List.forall₂_same.2 fun r _ => List.forall₂_same.2 fun b _ => ⟨rfl, rfl, fun l => hsub _ l⟩

/-! ## Any number of levels -/

theorem serialWithin_mono (hc : ctx.Coherent) (hnm : n ≤ m)
    (h : ctx.serialWithin name n o = .ok l) : ctx.serialWithin name m o = .ok l := by
  induction n generalizing m o l with
  | zero => simp [serialWithin] at h
  | succ n ih =>
    obtain ⟨m, rfl⟩ := Nat.exists_eq_add_of_le' hnm
    rw [← Nat.add_assoc, serialWithin_succ_iff hc] at *
    refine ⟨h.1, h.2.imp fun os l hos => ?_⟩
    obtain ⟨ls, hls, rfl⟩ := Outcome.flatMapM_eq_ok.1 hos
    exact Outcome.flatMapM_eq_ok.2 ⟨ls, hls.imp fun p l hp => ih (Nat.le_add_left n m) hp, rfl⟩

/-- Operations in a row have an elision. -/
def Serializes (ctx : Context) (name : ValueRef → α) (os : List OpRef) (l : List (Serial α)) :
    Prop := ∃ n, ctx.Elided name n os l

theorem Elided.mono (hc : ctx.Coherent) (hnm : n ≤ m) (h : ctx.Elided name n os l) :
    ctx.Elided name m os l := by
  obtain ⟨ls, hls, rfl⟩ := Outcome.flatMapM_eq_ok.1 h
  exact Outcome.flatMapM_eq_ok.2 ⟨ls, hls.imp fun p l => serialWithin_mono hc hnm, rfl⟩

theorem Elided.append_iff : ctx.Elided name n (os ++ os') l ↔
    ∃ l₁ l₂, ctx.Elided name n os l₁ ∧ ctx.Elided name n os' l₂ ∧ l = l₁ ++ l₂ :=
  Outcome.flatMapM_append_eq_ok

theorem Elided.singleton_iff : ctx.Elided name n [o] l ↔ ctx.serialWithin name n o = .ok l := by
  rw [Elided, List.flatMapM_cons]
  simp

theorem Elided.cons_iff : ctx.Elided name n (o :: os) l ↔
    ∃ l₁ l₂, ctx.serialWithin name n o = .ok l₁ ∧ ctx.Elided name n os l₂ ∧ l = l₁ ++ l₂ := by
  rw [← List.singleton_append, append_iff]
  simp only [singleton_iff]

namespace Serializes

theorem nil : ctx.Serializes name [] [] := ⟨0, rfl⟩

theorem append (hc : ctx.Coherent) (h : ctx.Serializes name os l)
    (h' : ctx.Serializes name os' l') : ctx.Serializes name (os ++ os') (l ++ l') := by
  obtain ⟨n, h⟩ := h
  obtain ⟨m, h'⟩ := h'
  exact ⟨max n m, Elided.append_iff.2 ⟨l, l', h.mono hc (Nat.le_max_left n m),
    h'.mono hc (Nat.le_max_right n m), rfl⟩⟩

theorem cons (hc : ctx.Coherent) (h : ctx.Serializes name [o] l)
    (h' : ctx.Serializes name os l') : ctx.Serializes name (o :: os) (l ++ l') := h.append hc h'

theorem unique (hc : ctx.Coherent) (h : ctx.Serializes name os l)
    (h' : ctx.Serializes name os l') : l = l' := by
  obtain ⟨n, h⟩ := h
  obtain ⟨m, h'⟩ := h'
  exact Except.ok.inj ((h.mono hc (Nat.le_max_left n m)).symm.trans
    (h'.mono hc (Nat.le_max_right n m)))

/-- An elision made of elisions. -/
theorem of_elision (hc : ctx.Coherent) (ho : ctx.HasOp o)
    (h : Elision ctx name (ctx.Serializes name) o l) : ctx.Serializes name [o] l := by
  suffices ∃ n, Elision ctx name (ctx.Elided name n) o l by
    obtain ⟨n, h⟩ := this
    exact ⟨n + 1, Elided.singleton_iff.2 ((serialWithin_succ_iff hc).2 ⟨ho, h⟩)⟩
  cases h with
  | barrier hkind => exact ⟨0, .barrier hkind⟩
  | parallel hkind hr hb hl =>
    obtain ⟨n, hl⟩ := hl
    exact ⟨n, .parallel hkind hr hb hl⟩
  | op hbarrier hparallel hregions =>
    have hmono (n m : Nat) (b : BlockRef) (block : Serial.Block α (Serial α)) (hnm : n ≤ m)
        (hb : BlockElision ctx name (ctx.Elided name n) b block) :
        BlockElision ctx name (ctx.Elided name m) b block :=
      ⟨hb.args, hb.types, hb.ops.mono hc hnm⟩
    obtain ⟨n, hregions⟩ := Outcome.exists_bound_of_forall₂
      (r := fun n r blocks => List.Forall₂ (BlockElision ctx name (ctx.Elided name n))
        (ctx.blocksOf r) blocks)
      (fun n m r blocks hnm h => h.imp fun b block => hmono n m b block hnm)
      (hregions.imp fun r blocks hblocks => Outcome.exists_bound_of_forall₂
        (r := fun n => BlockElision ctx name (ctx.Elided name n)) hmono
        (hblocks.imp fun b block ⟨hargs, htypes, n, hops⟩ => ⟨n, hargs, htypes, hops⟩))
    exact ⟨n, .op hbarrier hparallel hregions⟩

/-- The elision of a list of operations, taken one by one. -/
theorem of_forall₂ (hc' : ctx'.Coherent) {r : OpRef → OpRef → Prop} (hos : List.Forall₂ r os os')
    (hr : ∀ p p', r p p' → ∀ l, ctx.serialWithin name n p = .ok l → ctx'.Serializes name' [p'] l)
    (h : ctx.Elided name n os l) : ctx'.Serializes name' os' l := by
  induction hos generalizing l with
  | nil =>
    obtain rfl := Outcome.pure_eq_ok.1 (h : (pure [] : Except Fault (List (Serial α))) = .ok l)
    exact nil
  | cons hp _ ih =>
    obtain ⟨l₁, l₂, h₁, h₂, rfl⟩ := Elided.cons_iff.1 h
    exact (hr _ _ hp l₁ h₁).cons hc' (ih h₂)

theorem of_forall (hc' : ctx'.Coherent)
    (hos : ∀ p ∈ os, ∀ l, ctx.serialWithin name n p = .ok l → ctx'.Serializes name' [p] l)
    (h : ctx.Elided name n os l) : ctx'.Serializes name' os l :=
  of_forall₂ hc' (r := fun p p' => p ∈ os ∧ p = p') (List.forall₂_same.2 fun _ hp => ⟨hp, rfl⟩)
    (fun p _ ⟨hp, e⟩ l hl => e ▸ hos p hp l hl) h

end Serializes

/-! ## Programs with an elision -/

theorem mem_opsOf_of_mem_kept {b : BlockRef} (h : o ∈ ctx.kept b) : o ∈ ctx.opsOf b := by
  rw [kept] at h
  split at h
  · exact List.mem_of_mem_dropLast h
  · exact h

theorem Coherent.kept_nodup (h : ctx.Coherent) (b : BlockRef) : (ctx.kept b).Nodup := by
  rw [kept]
  split
  · exact (h.ops.nodup b).sublist (List.dropLast_sublist _)
  · exact h.ops.nodup b

/-- What has a part in the elision is not discarded. -/
theorem Coherent.not_discarded_of_mem_kept (h : ctx.Coherent) {b : BlockRef} {p : OpRef}
    (hb : ctx.holder b = some p) (hp : ¬ctx.Discarded p) (ho : o ∈ ctx.kept b) :
    ¬ctx.Discarded o := by
  rintro ⟨c, a, last, hc, ha, hlast, hw⟩
  have hmem := mem_opsOf_of_mem_kept ho
  rcases within_iff_above.1 hw with rfl | ⟨t, ht, hw⟩
  · obtain rfl := h.ops.owner_unique (List.mem_of_getLast? hlast) hmem
    obtain rfl := Option.some.inj (hb.symm.trans hc)
    obtain ⟨before, hops⟩ := List.getLast?_eq_some_iff.1 hlast
    have hnodup := h.ops.nodup c
    rw [kept_of_parallel hb ha, hops, List.dropLast_concat] at ho
    rw [hops, List.nodup_append] at hnodup
    exact hnodup.2.2 _ ho _ List.mem_cons_self rfl
  · rw [h.above_of_mem hmem, hb] at ht
    obtain rfl := Option.some.inj ht
    exact hp ⟨c, a, last, hc, ha, hlast, hw⟩

/-- A stable program has an elision. -/
theorem Stable.serial_ok {root : OpRef} (h : ctx.Stable root) (name : ValueRef → α) :
    ∃ l, ctx.serial name root = .ok l := by
  have hc := h.sound.coherent
  obtain ⟨depth, hdepth, hsize⟩ := h.sound.grounded.exists_depth hc
  have key (n : Nat) (o : OpRef) (ho : ctx.Within o root) (hn : ctx.ops.size ≤ depth o + n) :
      ∃ l, ctx.serialWithin name n o = .ok l := by
    induction n generalizing o with
    | zero =>
      have := hsize o (hc.hasOp_of_within' ho h.hasRoot)
      omega
    | succ n ih =>
      have hsub (b : BlockRef) (hb : ctx.holder b = some o) :
          ∃ l, ctx.Elided name n (ctx.kept b) l := by
        refine Outcome.flatMapM_ok fun p hp => ?_
        have habove : ctx.above p = some o :=
          (hc.above_of_mem (mem_opsOf_of_mem_kept hp)).trans hb
        have := hdepth p o habove
        exact ih p ((within_of_above habove).trans ho) (by omega)
      simp only [serialWithin_succ_iff hc, and_iff_right (hc.hasOp_of_within' ho h.hasRoot)]
      by_cases hbarrier : ctx.kindOf o = .barrier
      · exact ⟨[], .barrier hbarrier⟩
      by_cases hparallel : ctx.kindOf o = .parallel
      · obtain ⟨t⟩ := h.nonempty_team ho hparallel
        obtain ⟨l, hl⟩ := hsub t.body (t.holder hc)
        exact ⟨l, .parallel hparallel (r := t.region) (b := t.body) (by rw [t.regions]; rfl)
          (by rw [t.blocks]; rfl) hl⟩
      · obtain ⟨regions, hregions⟩ := Position.exists_forall₂ (l := ctx.regionsOf o)
          (r := fun r blocks => List.Forall₂ (BlockElision ctx name (ctx.Elided name n))
            (ctx.blocksOf r) blocks) fun r hr => Position.exists_forall₂ fun b hb => by
              obtain ⟨l, hl⟩ := hsub b (hc.holder_of_mem hr hb)
              exact ⟨⟨_, _, l⟩, rfl, rfl, hl⟩
        exact ⟨_, .op hbarrier hparallel hregions⟩
  exact key _ root (.refl root) (by omega)

/-- The elision is found, if there is one at all. -/
theorem Stable.serial_of_serializes {root : OpRef} (h : ctx.Stable root)
    (hl : ctx.Serializes name [root] l) : ctx.serial name root = .ok l := by
  obtain ⟨l', hl'⟩ := h.serial_ok name
  rw [hl', hl.unique h.sound.coherent ⟨_, Elided.singleton_iff.2 hl'⟩]

end Context

end Offload
