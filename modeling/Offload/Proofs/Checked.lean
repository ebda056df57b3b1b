import Offload.Proofs.Ir.Sourced
import Offload.Proofs.Validity

/-!
# What checks say by themselves

Nothing is assumed of the context here: its tables may be anything that calls of the
interface can make of them. If the checks of links and of scope find nothing at a root,
then what is listed under the root records where it is listed, and each operand there
is a value that the blocks around it define ahead of it (`checked_of_nil`).

A block may still list an operation twice. The check of scope goes by the first place of
an operation in its block, so what is ahead of it is ahead of all of them (`Ahead`).
-/

namespace Offload.Context

variable {ctx : Context} {root : OpRef}

/-- A value is defined ahead of an operation: in a block that this or an operation around
    it stands in, by the block itself, or by an operation that comes before each place
    where the block lists the one in it. -/
def Ahead (ctx : Context) (o : OpRef) (v : ValueRef) : Prop :=
  ∃ w b, ctx.Within o w ∧ ctx.blockOf w = some b ∧ (v ∈ ctx.args b ∨
    ∃ p, v ∈ ctx.results p ∧ ∀ before after, ctx.opsOf b = before ++ w :: after → p ∈ before)

/-- What the checks of links and of scope ask of a tree. -/
structure Checked (ctx : Context) (tree : List OpRef) : Prop where
  holder : ∀ o ∈ tree, ∀ r ∈ ctx.regionsOf o, ∀ b ∈ ctx.blocksOf r, ctx.holder b = some o
  listed : ∀ o ∈ tree, ∀ r ∈ ctx.regionsOf o, ∀ b ∈ ctx.blocksOf r, ∀ p ∈ ctx.opsOf b,
    ctx.blockOf p = some b ∧ p ∈ tree
  ahead : ∀ o ∈ tree, ∀ v ∈ ctx.operandsOf o, ctx.Ahead o v

/-! ## From one level to the next -/

/-- Nothing is ahead of an operation outside of all blocks. -/
theorem not_ahead_of_detached (h : ctx.blockOf root = none) (v : ValueRef) : ¬ctx.Ahead root v := by
  rintro ⟨w, b, hw, hb, -⟩
  rcases within_iff_above.1 hw with rfl | ⟨p, hp, -⟩
  · rw [h] at hb
    cases hb
  · rw [above, h] at hp
    cases hp

/-- What is ahead of an operation in a block of another one is an argument of the block, a
    result of an operation before it, or ahead of the other one. -/
theorem Ahead.cases {b : BlockRef} {o p : OpRef} {v : ValueRef} (h : ctx.Ahead p v)
    (hp : ctx.blockOf p = some b) (hb : ctx.holder b = some o) {before after : List OpRef}
    (hsplit : ctx.opsOf b = before ++ p :: after) :
    v ∈ ctx.args b ∨ (∃ q ∈ before, v ∈ ctx.results q) ∨ ctx.Ahead o v := by
  obtain ⟨w, c, hw, hc, hv⟩ := h
  rcases within_iff_above.1 hw with rfl | ⟨t, ht, hw⟩
  · obtain rfl := Option.some.inj (hp.symm.trans hc)
    rcases hv with hv | ⟨q, hq, hbefore⟩
    · exact .inl hv
    · exact .inr (.inl ⟨q, hbefore before after hsplit, hq⟩)
  · rw [above, hp] at ht
    obtain rfl := Option.some.inj (hb.symm.trans ht)
    exact .inr (.inr ⟨w, c, hw, hc, hv⟩)

/-! ## The checks -/

/-- What is directly in an operation of a tree is in the tree. -/
theorem children_of_mem_subtreeWithin {n : Nat} {o p : OpRef} {l : List OpRef}
    (hrun : ctx.subtreeWithin n o = .ok l) (hp : p ∈ l) :
    ctx.HasOp p ∧ ∀ c ∈ ctx.childrenOf p, c ∈ l := by
  induction n generalizing o l with
  | zero => simp [subtreeWithin] at hrun
  | succ n ih =>
    obtain ⟨ho, ls, hls, rfl⟩ := subtreeWithin_succ_eq_ok hrun
    rcases List.mem_cons.1 hp with rfl | hp
    · refine ⟨ho, fun c hc => List.mem_cons_of_mem _ ?_⟩
      obtain ⟨l, hl, hrun⟩ := Outcome.exists_of_mem_left hls hc
      obtain ⟨m, rfl⟩ : ∃ m, n = m + 1 := Nat.exists_eq_succ_of_ne_zero (by
        rintro rfl
        simp [subtreeWithin] at hrun)
      obtain ⟨-, ls', -, rfl⟩ := subtreeWithin_succ_eq_ok hrun
      exact List.mem_flatten.2 ⟨_, hl, List.mem_cons_self⟩
    · obtain ⟨l, hl, hp⟩ := List.mem_flatten.1 hp
      obtain ⟨c, -, hrun⟩ := Outcome.exists_of_mem_right hls hl
      obtain ⟨hop, hchildren⟩ := ih hrun hp
      exact ⟨hop, fun d hd => List.mem_cons_of_mem _ (List.mem_flatten.2 ⟨l, hl, hchildren d hd⟩)⟩

theorem checkRegionLinks_eq_nil {o : OpRef} {r : RegionRef}
    (hrun : ctx.checkRegionLinks o r = .ok []) :
    ctx.ownerOf r = some o ∧ ∀ b ∈ ctx.blocksOf r, ctx.regionOf b = some r ∧
      ∀ p ∈ ctx.opsOf b, ctx.blockOf p = some b := by
  simp only [checkRegionLinks, Outcome.bind_eq_ok, Outcome.pure_eq_ok,
    List.append_eq_nil_iff] at hrun
  obtain ⟨region, hregion, _, hblocks, howner, rfl⟩ := hrun
  rw [ownerOf, blocksOf, readRegion_of_region hregion, readRegion_of_region hregion]
  refine ⟨by simpa using howner, fun b hb => ?_⟩
  have hblock := Outcome.flatMapM_eq_nil.1 hblocks b hb
  simp only [checkBlockLinks, Outcome.bind_eq_ok, Outcome.pure_eq_ok,
    List.append_eq_nil_iff] at hblock
  obtain ⟨block, hblock, _, hops, hparent, rfl⟩ := hblock
  rw [regionOf, opsOf, readBlock_of_block hblock, readBlock_of_block hblock]
  refine ⟨by simpa using hparent, fun p hp => ?_⟩
  have hop := Outcome.flatMapM_eq_nil.1 hops p hp
  simp only [checkOpLink, Outcome.bind_eq_ok, Outcome.pure_eq_ok, List.append_eq_nil_iff] at hop
  obtain ⟨operation, hoperation, hplace, -⟩ := hop
  rw [blockOf, readOp_of_op hoperation]
  simpa using hplace

theorem seenFrom_of_isVisibleWithin {b : BlockRef} {after : Option Nat} {n : Nat} {o : OpRef}
    (hrun : ctx.isVisibleWithin b after n o = .ok true) : ctx.SeenFrom b after o := by
  induction n generalizing o with
  | zero => simp [isVisibleWithin] at hrun
  | succ n ih =>
    obtain ⟨row, hrow, hrun⟩ := Outcome.bind_eq_ok.1 hrun
    split at hrun
    · rename_i hparent
      refine ⟨o, .refl o, (readOp_of_op hrow _ _).trans hparent, fun position hposition => ?_⟩
      subst hposition
      obtain ⟨block, hblock, hrun⟩ := Outcome.bind_eq_ok.1 hrun
      obtain ⟨k, hk, hlt⟩ := (Option.any_eq_true _ _).1 (Outcome.pure_eq_ok.1 hrun)
      exact ⟨k, by rwa [opsOf, readBlock_of_block hblock], by simpa using hlt⟩
    · obtain ⟨parent, hparent, hrun⟩ := Outcome.bind_eq_ok.1 hrun
      obtain ⟨-, rfl⟩ := parentOp_eq_ok hparent
      split at hrun
      · rename_i p hp
        obtain ⟨w, hw, hseen⟩ := ih hrun
        exact ⟨w, (within_of_above hp).trans hw, hseen⟩
      · simp at hrun

/-- Of two operations the one that is first met later comes after the other, wherever it
    is met. -/
theorem mem_before_of_idxOf? {l before after : List OpRef} {p w : OpRef} {i k : Nat}
    (hp : l.idxOf? p = some i) (hw : l.idxOf? w = some k) (hlt : i < k)
    (hsplit : l = before ++ w :: after) : p ∈ before := by
  obtain ⟨mid, rest, hl, -, rfl⟩ := Position.idxOf?_eq_some_iff.1 hp
  obtain ⟨mid', rest', hl', hnot, rfl⟩ := Position.idxOf?_eq_some_iff.1 hw
  have hle : mid'.length ≤ before.length := by
    by_contra hn
    have hget : l[before.length]? = some w := by simp [hsplit]
    rw [hl', List.getElem?_append_left (by omega)] at hget
    exact hnot (List.mem_of_getElem? hget)
  have hget : l[mid.length]? = some p := by simp [hl]
  rw [hsplit, List.getElem?_append_left (by omega)] at hget
  exact List.mem_of_getElem? hget

theorem ahead_of_outOfScope? (h : ctx.Sourced) {s : Slot}
    (hrun : ctx.outOfScope? s = .ok none) : ctx.Ahead s.use.user s.value := by
  obtain ⟨row, hrow, hrun⟩ := Outcome.bind_eq_ok.1 hrun
  obtain ⟨answer, hscope, hrun⟩ := Outcome.bind_eq_ok.1 hrun
  have hsource : ctx.sourceOf s.value = some row.source := by
    rw [sourceOf, value_eq_ok.1 hrow]
    rfl
  have hdefines := (h row.source s.value).2 hsource
  cases answer with
  | false =>
    obtain ⟨kind, -, hrun⟩ := Outcome.bind_eq_ok.1 hrun
    cases Outcome.pure_eq_ok.1 hrun
  | true =>
    cases hd : row.source with
    | argument b n =>
      rw [hd] at hscope hdefines
      obtain ⟨w, hw, hb, -⟩ := seenFrom_of_isVisibleWithin hscope
      exact ⟨w, b, hw, hb, .inl (List.mem_of_getElem? hdefines)⟩
    | result p n =>
      rw [hd] at hscope hdefines
      obtain ⟨operation, hoperation, hscope⟩ := Outcome.bind_eq_ok.1 hscope
      split at hscope
      · rename_i b hb
        obtain ⟨block, hblock, hscope⟩ := Outcome.bind_eq_ok.1 hscope
        split at hscope
        · rename_i i hi
          obtain ⟨w, hw, hwb, hafter⟩ := seenFrom_of_isVisibleWithin hscope
          obtain ⟨k, hk, hlt⟩ := hafter i rfl
          have hops : ctx.opsOf b = block.ops := readBlock_of_block hblock _ _
          exact ⟨w, b, hw, hwb, .inr ⟨p, List.mem_of_getElem? hdefines, fun before after hsplit =>
            mem_before_of_idxOf? (hops ▸ hi) hk hlt hsplit⟩⟩
        · simp at hscope
      · simp at hscope

/-- What checks that find nothing say. -/
theorem checked_of_nil (h : ctx.Sourced) (hlinks : ctx.checkLinks root = .ok [])
    (hscope : ctx.checkScoping root = .ok []) :
    ∃ tree, ctx.subtree root = .ok tree ∧ ctx.Checked tree := by
  obtain ⟨tree, htree, hlinks⟩ := Outcome.bind_eq_ok.1 hlinks
  obtain ⟨tree', htree', hscope⟩ := Outcome.bind_eq_ok.1 hscope
  obtain rfl := Except.ok.inj (htree.symm.trans htree')
  have hlinked {o : OpRef} (ho : o ∈ tree) {r : RegionRef} (hr : r ∈ ctx.regionsOf o) :
      ctx.checkRegionLinks o r = .ok [] := by
    obtain ⟨row, hrow, hrun⟩ := Outcome.bind_eq_ok.1 (Outcome.flatMapM_eq_nil.1 hlinks o ho)
    rw [regionsOf, readOp_of_op hrow] at hr
    exact Outcome.flatMapM_eq_nil.1 hrun r hr
  refine ⟨tree, htree, fun o ho r hr b hb => ?_, fun o ho r hr b hb p hp => ?_, fun o ho v hv => ?_⟩
  · obtain ⟨howner, hblocks⟩ := checkRegionLinks_eq_nil (hlinked ho hr)
    rw [holder, (hblocks b hb).1]
    exact howner
  · refine ⟨((checkRegionLinks_eq_nil (hlinked ho hr)).2 b hb).2 p hp,
      (children_of_mem_subtreeWithin htree ho).2 p ?_⟩
    exact List.mem_flatMap.2 ⟨r, hr, List.mem_flatMap.2 ⟨b, hb, hp⟩⟩
  · obtain ⟨slots, hslots, hrun⟩ := Outcome.bind_eq_ok.1 (Outcome.flatMapM_eq_nil.1 hscope o ho)
    obtain rfl := Except.ok.inj
      ((slotsOf_ok (children_of_mem_subtreeWithin htree ho).1).symm.trans hslots)
    obtain ⟨i, hi⟩ := List.mem_iff_getElem?.1 hv
    exact ahead_of_outOfScope? (s := ⟨v, ⟨o, i⟩⟩) h (Outcome.filterMapM_eq_nil.1 hrun _
      (List.mem_map.2 ⟨(v, i), List.mem_zipIdx_iff_getElem?.2 hi, rfl⟩))

end Offload.Context
