import Offload.Proofs.Parallel.Elision
import Offload.Proofs.Source.Build

/-!
# Runs of the parallel patterns

A program that was read and is valid is stable, and what a run of the parallel patterns
makes of it is reached by steps. So its serial elision is that of the program before the
run, up to a renaming of the values of what has moved (`run_serial`).
-/

namespace Offload

open Context

variable {root : OpRef} {ctx ctx₁ ctx₂ ctx' : Context} {ρ ρ₁ ρ₂ : ValueRef → ValueRef}

/-- A renaming of the values of a program. Those that change belonged to operations that
    were erased, and become new ones, each another one. -/
structure Renaming (ρ : ValueRef → ValueRef) (ctx ctx' : Context) : Prop where
  injective : ∀ v w, v.index < ctx.values.size → w.index < ctx.values.size → ρ v = ρ w → v = w
  bounded : ∀ v, v.index < ctx.values.size → (ρ v).index < ctx'.values.size
  moved : ∀ v, v.index < ctx.values.size → ρ v ≠ v → ctx.values.size ≤ (ρ v).index ∧
    ∃ o, ctx.definer v = some o ∧ ctx'.isErased o

namespace Renaming

theorem id_of_evolves (h : ctx.Evolves ctx') : Renaming id ctx ctx' :=
  ⟨fun _ _ _ _ e => e, fun _ hv => hv.trans_le h.values_size, fun _ _ hne => absurd rfl hne⟩

theorem comp (h₁ : Renaming ρ₁ ctx ctx₁) (h₂ : Renaming ρ₂ ctx₁ ctx₂) (hc : ctx.Coherent)
    (hev₁ : ctx.Evolves ctx₁) (hev₂ : ctx₁.Evolves ctx₂) : Renaming (ρ₂ ∘ ρ₁) ctx ctx₂ where
  injective v w hv hw e := h₁.injective v w hv hw
    (h₂.injective _ _ (h₁.bounded v hv) (h₁.bounded w hw) e)
  bounded v hv := h₂.bounded _ (h₁.bounded v hv)
  moved v hv hne := by
    have hsize := hev₁.values_size
    by_cases hv₁ : ρ₁ v = v
    · rw [Function.comp_apply, hv₁] at hne ⊢
      obtain ⟨hle, o, ho, herased⟩ := h₂.moved v (hv.trans_le hsize) hne
      exact ⟨hsize.trans hle, o, (hev₁.definer_eq hc hv).symm.trans ho, herased⟩
    · obtain ⟨hle, o, ho, herased⟩ := h₁.moved v hv hv₁
      refine ⟨?_, o, ho, hev₂.erased o herased⟩
      by_cases hv₂ : ρ₂ (ρ₁ v) = ρ₁ v
      · rwa [Function.comp_apply, hv₂]
      · exact hsize.trans (h₂.moved _ (h₁.bounded v hv) hv₂).1

theorem of_absorb {o previous copy : OpRef} {s : ctx.Absorb o previous} (d : s.Done ρ copy ctx')
    (hc : ctx.Coherent) : Renaming ρ ctx ctx' where
  injective v w hv hw e := by
    by_cases hdv : ctx.DefinedWithin previous v <;> by_cases hdw : ctx.DefinedWithin previous w
    · exact d.injective v w hdv hdw e
    · have := (d.fresh v hdv).1
      rw [e, d.outside w hdw] at this
      omega
    · have := (d.fresh w hdw).1
      rw [← e, d.outside v hdv] at this
      omega
    · rwa [d.outside v hdv, d.outside w hdw] at e
  bounded v hv := by
    by_cases hdv : ctx.DefinedWithin previous v
    · exact (d.fresh v hdv).2
    · rw [d.outside v hdv]
      exact hv.trans_le d.evolves.values_size
  moved v hv hne := by
    have hdv : ctx.DefinedWithin previous v := not_not.1 fun hdv => hne (d.outside v hdv)
    obtain ⟨o, ho, hw⟩ := hdv
    refine ⟨(d.fresh v ⟨o, ho, hw⟩).1, o, ho, (d.erased o ?_).2 (.inl hw)⟩
    exact hc.hasOp_of_within' hw (hc.hasOp_of_mem (b := s.place) (by simp [s.place_ops]))

end Renaming

/-- Nothing around the root is a parallel region. -/
theorem Context.Stable.root_not_discarded (h : ctx.Stable root) : ¬ctx.Discarded root := by
  rintro ⟨b, p, last, hb, -, hlast, hw⟩
  have hblock := (h.sound.coherent.ops.owner_iff last b).2 (List.mem_of_getLast? hlast)
  rcases within_iff_above.1 hw with rfl | ⟨t, ht, -⟩
  · rw [h.detached] at hblock
    cases hblock
  · rw [above, h.detached] at ht
    cases ht

/-- A step keeps the serial elision, up to a renaming of values. -/
theorem Step.serializes (hstep : Step root ctx ctx') (h : ctx.Stable root) :
    ∃ ρ, Renaming ρ ctx ctx' ∧ ∀ (name : ValueRef → ValueRef) l,
      ctx.Serializes (name ∘ ρ) [root] l → ctx'.Serializes name [root] l := by
  have hkept := h.root_not_discarded
  have hfree (b : BlockRef) : root ∉ ctx.opsOf b :=
    h.sound.coherent.ops.not_mem_of_free h.detached b
  cases hstep with
  | swap s barriers ho hne d =>
    refine ⟨id, .id_of_evolves d.evolves, fun name l ⟨n, hl⟩ => ?_⟩
    exact d.serializes h ho (.refl root) hne.symm (Elided.singleton_iff.1 hl)
  | @absorb o previous s σ copy ho hne d =>
    refine ⟨σ, .of_absorb d h.sound.coherent, fun name l ⟨n, hl⟩ => ?_⟩
    refine d.serializes h ho (.refl root) hne.symm (fun hw => ?_) hkept
      (Elided.singleton_iff.1 hl)
    refine hfree s.place ?_
    rw [h.sound.grounded.antisymm hw (s.within_root h ho), s.place_ops]
    simp
  | @fuse o previous s barrier ho hne d =>
    refine ⟨id, .id_of_evolves d.evolves, fun name l ⟨n, hl⟩ => ?_⟩
    refine d.serializes h ho (.refl root) hne.symm (fun e => ?_) hkept
      (Elided.singleton_iff.1 hl)
    refine hfree s.place ?_
    rw [e, s.place_ops]
    simp

/-- So does any number of steps. -/
theorem Steps.serializes (hsteps : Steps root ctx ctx') (h : ctx.Stable root) :
    ∃ ρ, Renaming ρ ctx ctx' ∧ ∀ (name : ValueRef → ValueRef) l,
      ctx.Serializes (name ∘ ρ) [root] l → ctx'.Serializes name [root] l := by
  induction hsteps with
  | refl => exact ⟨id, .id_of_evolves (.refl ctx), fun _ _ hl => hl⟩
  | tail hsteps hstep ih =>
    obtain ⟨ρ₁, h₁, hserial₁⟩ := ih
    obtain ⟨ρ₂, h₂, hserial₂⟩ := hstep.serializes (Steps.stable hsteps h)
    exact ⟨ρ₂ ∘ ρ₁, h₁.comp h₂ h.sound.coherent (Steps.evolves hsteps) hstep.evolves,
      fun name l hl => hserial₂ name l (hserial₁ (name ∘ ρ₂) l hl)⟩

namespace Parallel

variable {path text : String} {findings : Findings}

/-- A valid program that was read is stable. -/
theorem stable_of_read (hread : Context.empty.read path text = (.ok root, ctx))
    (hfindings : ctx.findings root = .ok findings) (hvalid : findings.isEmpty) :
    ctx.Stable root := by
  obtain ⟨hsound, hroot, hdetached, hlive⟩ := Build.read_built hread
  exact (Build.read_valid hread hfindings hvalid).stable hsound hroot hdetached fun o _ => by
    rw [hlive]
    exact Bool.false_ne_true

/-- A run keeps the serial elision of a valid program, up to a renaming of values. -/
theorem run_serial (hread : Context.empty.read path text = (.ok root, ctx))
    (hfindings : ctx.findings root = .ok findings) (hvalid : findings.isEmpty)
    (maxPasses : Nat) {result : GreedyResult}
    (hrun : { patterns, maxPasses : Greedy }.run ctx root = .ok (ctx', result)) :
    ∃ ρ, Renaming ρ ctx ctx' ∧ ctx'.types = ctx.types ∧ ctx'.paths = ctx.paths ∧
      ∃ forest, ctx.serial ρ root = .ok forest ∧ ctx'.serial id root = .ok forest := by
  have h := stable_of_read hread hfindings hvalid
  have hreaches := Greedy.run_reaches hrun
  have hsteps := steps_of_reaches rfl h hreaches
  obtain ⟨ρ, hρ, hserial⟩ := hsteps.serializes h
  obtain ⟨forest, hforest⟩ := h.serial_ok ρ
  have hev := hsteps.evolves
  exact ⟨ρ, hρ, hev.types, hev.paths, forest, hforest, (hsteps.stable h).serial_of_serializes
    (hserial id forest ⟨_, Elided.singleton_iff.2 hforest⟩)⟩

/-- Whether a text is a valid program, and a run of the patterns ends in a context and
    with a result that pass a test. -/
def endsWith (path text : String) (maxPasses : Nat)
    (test : OpRef → Context → Context → GreedyResult → Bool) : Bool :=
  match Context.empty.read path text with
  | (.error _, _) => false
  | (.ok root, ctx) =>
    match ctx.findings root, { patterns, maxPasses : Greedy }.run ctx root with
    | .ok findings, .ok (ctx', result) => findings.isEmpty && test root ctx ctx' result
    | _, _ => false

theorem exists_of_endsWith {maxPasses : Nat}
    {test : OpRef → Context → Context → GreedyResult → Bool}
    (h : endsWith path text maxPasses test) : ∃ root ctx findings ctx' result,
      Context.empty.read path text = (.ok root, ctx) ∧ ctx.findings root = .ok findings ∧
        findings.isEmpty ∧ { patterns, maxPasses : Greedy }.run ctx root = .ok (ctx', result) ∧
          test root ctx ctx' result := by
  unfold endsWith at h
  split at h
  · cases h
  · rename_i root ctx hread
    split at h
    · rename_i findings ctx' result hfindings hrun
      rw [Bool.and_eq_true] at h
      exact ⟨root, ctx, findings, ctx', result, hread, hfindings, h.1, hrun, h.2⟩
    · cases h

theorem endsWith_ofList {cs : List Char} {maxPasses : Nat}
    {test : OpRef → Context → Context → GreedyResult → Bool}
    (h : Build.readsChars path cs fun root ctx =>
      match ctx.findings root, { patterns, maxPasses : Greedy }.run ctx root with
      | .ok findings, .ok (ctx', result) => findings.isEmpty && test root ctx ctx' result
      | _, _ => false) : endsWith path (String.ofList cs) maxPasses test := by
  obtain ⟨root, ctx, hread, h⟩ := Build.exists_of_readsChars h
  unfold endsWith
  rw [hread]
  exact h

/-- A constant between two regions, which the second one uses. -/
def constantBetween : String :=
  "func.func @f \x7btype = func.fn(core.nil)\x7d \x7b
  omp.parallel \x7b
    omp.terminator
  \x7d
  %c = arith.const \x7bvalue = 1\x7d : core.i32
  omp.parallel \x7b
    test.use %c
    omp.terminator
  \x7d
  func.return
\x7d"

set_option maxRecDepth 100000 in
/-- The constant moves into the second region, which is then fused with the first. -/
theorem run_serial_constantBetween : ∃ root ctx ctx', ∃ result : GreedyResult, ∃ ρ forest,
    Context.empty.read "f" constantBetween = (.ok root, ctx) ∧
      { patterns, maxPasses := 47 : Greedy }.run ctx root = .ok (ctx', result) ∧
        result.changes = 1 ∧ ctx.values.size < ctx'.values.size ∧ Renaming ρ ctx ctx' ∧
          ctx.serial ρ root = .ok forest ∧ ctx'.serial id root = .ok forest := by
  have hends : endsWith "f" constantBetween 47 (fun _ ctx ctx' result =>
    result.changes = 1 && decide (ctx.values.size < ctx'.values.size)) :=
    endsWith_ofList (by decide +kernel)
  obtain ⟨root, ctx, findings, ctx', result, hread, hfindings, hvalid, hrun, htest⟩ :=
    exists_of_endsWith hends
  obtain ⟨hchanges, hsize⟩ : result.changes = 1 ∧ ctx.values.size < ctx'.values.size := by
    simpa using htest
  obtain ⟨ρ, hρ, -, -, forest, hforest, hforest'⟩ := run_serial hread hfindings hvalid 47 hrun
  exact ⟨root, ctx, ctx', result, ρ, forest, hread, hrun, hchanges, hsize, hρ, hforest, hforest'⟩

end Parallel

end Offload
