import Offload.Proofs.Parallel.Queue
import Offload.Proofs.Parallel.Termination
import Offload.Proofs.Source.Mention

/-!
# What a merge changes

A parallel region takes in what stands before it, from the last operation to the first, as
long as that may move (`Movable`). Whether an operation may move is decided in the program
that the moves before it have left, but it can be said in terms of the program at the start:
what has moved counts as part of the region (`Queue.Done.movable_iff`). So the row that moves
is the longest one of which each operation may move behind the others, and it ends at another
region, at an operation that may not move, or at the start of the block (`Moving.run`).

If it ends at another region, the two are fused (`Queue.Merged`); otherwise the pattern
applies only if anything has moved. This is all that a merge does (`merge_effect`).
-/

namespace Offload

namespace Context

variable {ctx ctx₁ ctx₂ : Context} {o q : OpRef} {moved copies : List OpRef}
  {σ : ValueRef → ValueRef}

/-! ## What may move -/

/-- An operation may move into a region behind those of a row: it is not a region itself, it
    at most reads, and its results are held nowhere but in the region and in the row. -/
structure Movable (ctx : Context) (o : OpRef) (moved : List OpRef) (q : OpRef) : Prop where
  kind : ctx.kindOf q ≠ .parallel
  readOnly : ctx.isReadOnly q = .ok true
  used : ∀ v ∈ ctx.results q, ∀ p, v ∈ ctx.heldBy p →
    ctx.Within p o ∨ ∃ m ∈ moved, ctx.Within p m

/-- All of a row may move, the last operation first. -/
def AllMovable (ctx : Context) (o : OpRef) : List OpRef → Prop
  | [] => True
  | q :: moved => ctx.Movable o moved q ∧ ctx.AllMovable o moved

/-- What is read-only stays so as long as what is in it stays. -/
theorem Coherent.isReadOnlyWithin_evolves (h : ctx.Coherent) (hev : ctx.Evolves ctx₁)
    (hops : ∀ b z, ctx.holder b = some z → ctx.Within z q → ctx₁.opsOf b = ctx.opsOf b)
    {n m : Nat} (hnm : n ≤ m) {z : OpRef} (hz : ctx.Within z q) {answer : Bool}
    (hrun : ctx.isReadOnlyWithin n z = .ok answer) : ctx₁.isReadOnlyWithin m z = .ok answer := by
  induction n generalizing m z answer with
  | zero => simp [isReadOnlyWithin] at hrun
  | succ n ih =>
    obtain ⟨m, rfl⟩ : ∃ k, m = k + 1 := ⟨m - 1, by omega⟩
    rw [isReadOnlyWithin] at hrun ⊢
    obtain ⟨kind, hkind, hrun⟩ := Outcome.bind_eq_ok.1 hrun
    obtain ⟨hex, rfl⟩ := kind_eq_ok hkind
    rw [kind_ok (hev.hasOp hex), hev.kindOf hex, Outcome.ok_bind]
    split at hrun
    · rename_i hrecursive
      obtain ⟨row, hrow, hrun⟩ := Outcome.bind_eq_ok.1 hrun
      obtain ⟨inside, hinside, hrun⟩ := Outcome.bind_eq_ok.1 hrun
      obtain ⟨row', hrow', hfixed⟩ := hev.op z row hrow
      have hregions : row'.regions = row.regions :=
        show row'.fixed.regions = row.fixed.regions by rw [hfixed]
      rw [if_pos hrecursive, hrow', Outcome.ok_bind, hregions]
      refine Outcome.bind_eq_ok.2 ⟨inside, Outcome.allM_imp (fun r hr y hy => ?_) hinside, hrun⟩
      obtain ⟨region, hregion, hy⟩ := Outcome.bind_eq_ok.1 hy
      rw [hev.region r region hregion, Outcome.ok_bind]
      refine Outcome.allM_imp (fun b hb y hy => ?_) hy
      obtain ⟨block, hblock, hy⟩ := Outcome.bind_eq_ok.1 hy
      obtain ⟨block', hblock', -⟩ := hev.block b block hblock
      have hholder : ctx.holder b = some z := by
        refine h.holder_of_mem (r := r) ?_ ?_
        · rwa [regionsOf, readOp_of_op hrow]
        · rwa [blocksOf, readRegion_of_region hregion]
      have hlist := hops b z hholder hz
      rw [opsOf, readBlock_of_block hblock', opsOf, readBlock_of_block hblock] at hlist
      rw [hblock', Outcome.ok_bind, hlist]
      refine Outcome.allM_imp (fun c hc y hy => ih (by omega) ?_ hy) hy
      have hmem : c ∈ ctx.opsOf b := by rwa [opsOf, readBlock_of_block hblock]
      exact (within_of_above ((h.above_of_mem hmem).trans hholder)).trans hz
    · rename_i hrecursive
      rwa [if_neg hrecursive]

theorem Evolves.ops_size (h : ctx.Evolves ctx₁) : ctx.ops.size ≤ ctx₁.ops.size :=
  Nat.not_lt.1 fun hlt => Nat.lt_irrefl _ (h.hasOp (o := ⟨ctx₁.ops.size⟩) hlt)

theorem hasOp_of_heldBy {p : OpRef} {v : ValueRef} (hv : v ∈ ctx.heldBy p) :
    ctx.HasOp p ∧ ¬ctx.isErased p := by
  refine ⟨?_, fun he => ?_⟩
  · by_contra hn
    rw [heldBy, readOp_of_not_hasOp hn] at hv
    cases hv
  · rw [heldBy_eq, if_pos he] at hv
    cases hv

namespace Queue.Done

variable {s : ctx.Queue o moved} (d : s.Done σ copies ctx₁) (h : ctx.Sound) (hq : q ∈ s.before)

include d h hq

theorem isReadOnly_iff : ctx₁.isReadOnly q = .ok true ↔ ctx.isReadOnly q = .ok true := by
  have hex : ctx.HasOp q := h.coherent.hasOp_of_mem (b := s.place) (by simp [s.place_ops, hq])
  have hregion := s.region_not_within_before h hq
  have hkept {answer : Bool} (hrun : ctx.isReadOnly q = .ok answer) :
      ctx₁.isReadOnly q = .ok answer :=
    h.coherent.isReadOnlyWithin_evolves d.evolves
      (fun b z hb hz => d.opsOf_inside h hb fun hoz => hregion (hoz.trans hz))
      (Nat.add_le_add_right d.evolves.ops_size 1) (.refl q) hrun
  refine ⟨fun hrun => ?_, hkept⟩
  obtain ⟨answer, hanswer⟩ := h.isReadOnly_ok hex
  rwa [← Except.ok.inj ((hkept hanswer).symm.trans hrun)]

/-- What has moved counts as part of the region. -/
theorem used_iff : (∀ v ∈ ctx₁.results q, ∀ p, v ∈ ctx₁.heldBy p → ctx₁.Within p o) ↔
    ∀ v ∈ ctx.results q, ∀ p, v ∈ ctx.heldBy p → ctx.Within p o ∨ ∃ m ∈ moved, ctx.Within p m := by
  have hc := h.coherent
  have hex : ctx.HasOp q := hc.hasOp_of_mem (b := s.place) (by simp [s.place_ops, hq])
  have hdefined {v : ValueRef} (hv : v ∈ ctx.results q) : ctx.DefinedWithin q v :=
    hc.definedWithin_iff.2 (.inl hv)
  rw [d.evolves.results hex]
  constructor
  · intro hused v hv p hp
    obtain ⟨hpex, hlive⟩ := hasOp_of_heldBy hp
    refine or_iff_not_imp_right.2 fun hrow => ?_
    have hlive₁ : ¬ctx₁.isErased p := by
      rw [d.erased p hpex]
      exact fun hor => hor.elim hrow hlive
    refine d.within_old h hpex (hused v hv p ?_)
    rw [d.held p hpex hlive₁, ← d.outside_of_before h hq (hdefined hv)]
    exact List.mem_map_of_mem hp
  · intro hused v hv p hp
    obtain ⟨hpex₁, hlive₁⟩ := hasOp_of_heldBy hp
    by_cases hpex : ctx.HasOp p
    · have hrow : ∀ m ∈ moved, ¬ctx.Within p m := fun m hm hw =>
        hlive₁ ((d.erased p hpex).2 (.inl ⟨m, hm, hw⟩))
      rw [d.held p hpex hlive₁] at hp
      obtain ⟨w, hw, hwv⟩ := List.mem_map.1 hp
      -- values of the row have new names, and this one is old
      have hout : ∀ m ∈ moved, ¬ctx.DefinedWithin m w := fun m hm hmw => by
        have hle := (d.fresh m hm w hmw).1
        have hlt := index_lt_of_definedWithin (hdefined hv)
        rw [hwv] at hle
        omega
      rw [d.outside w hout] at hwv
      refine d.within h ((hused v hv p (hwv ▸ hw)).resolve_right ?_) hrow
      rintro ⟨m, hm, hpm⟩
      exact hrow m hm hpm
    · obtain ⟨c, hcopy, hw⟩ := d.only p hpex₁ hpex
      refine hw.trans (within_of_above ?_)
      exact (d.sound.coherent.above_of_mem (b := s.team.body) (by simp [d.body, hcopy])).trans
        (d.evolves.holder hc (s.team.holder hc))

/-- What may move next, in terms of the program at the start. -/
theorem movable_iff : ctx.Movable o moved q ↔ ctx₁.kindOf q ≠ .parallel ∧
    ctx₁.isReadOnly q = .ok true ∧
      ∀ v ∈ ctx₁.results q, ∀ p, v ∈ ctx₁.heldBy p → ctx₁.Within p o := by
  have hex : ctx.HasOp q := h.coherent.hasOp_of_mem (b := s.place) (by simp [s.place_ops, hq])
  rw [d.isReadOnly_iff h hq, d.used_iff h hq, d.evolves.kindOf hex]
  exact ⟨fun hm => ⟨hm.kind, hm.readOnly, hm.used⟩, fun ⟨h₁, h₂, h₃⟩ => ⟨h₁, h₂, h₃⟩⟩

end Queue.Done

/-! ## Fusing after the moves -/

/-- A row of operations was moved into the region behind it, and the region was fused with
    the one before the row. This is all there is to say of the rows of the program that comes out,
    and what `merge_effect` says: which operations every block lists, which ones are erased, and
    what is held by those that are not. -/
structure Queue.Merged (s : ctx.Queue o moved) (target : ctx.Team q) (front : List OpRef)
    (σ : ValueRef → ValueRef) (copies : List OpRef) (barrier : OpRef) (ctx' : Context) : Prop
    extends ctx.Renewed moved σ copies ctx' where
  evolves : ctx.Evolves ctx'
  sound : ctx'.Sound
  place : ctx'.opsOf s.place = front ++ q :: s.after
  first : ctx'.opsOf target.body =
    target.contents ++ barrier :: (copies ++ ctx.opsOf s.team.body)
  second : ctx'.opsOf s.team.body = []
  other : ∀ b, ctx.HasBlock b → b ≠ s.place → b ≠ target.body → b ≠ s.team.body →
    ctx'.opsOf b = ctx.opsOf b
  erased : ∀ p, ctx.HasOp p → (ctx'.isErased p ↔
    p = o ∨ ctx.Within p target.last ∨ (∃ m ∈ moved, ctx.Within p m) ∨ ctx.isErased p)
  held : ∀ p, ctx.HasOp p → ¬ctx'.isErased p → ctx'.heldBy p = (ctx.heldBy p).map σ
  isNew : ¬ctx.HasOp barrier
  bare : ctx'.Bare .barrier barrier

namespace Queue.Done

variable {s : ctx.Queue o moved} {front : List OpRef} {barrier : OpRef} {t : ctx₁.Fuse o q}
  (d : s.Done σ copies ctx₁) (h : ctx.Sound) (hbefore : s.before = front ++ [q])
  (e : t.Done barrier ctx₂)

include d h hbefore

/-- The regions that are fused after the moves are those that there were before. -/
theorem fuse_parts (t : ctx₁.Fuse o q) (first : ctx.Team q) :
    t.place = s.place ∧ t.before = front ∧ t.after = s.after ∧ t.second.body = s.team.body ∧
      t.first.body = first.body ∧ t.first.contents = first.contents ∧
        t.first.last = first.last := by
  have hc := h.coherent
  have hc₁ := d.sound.coherent
  have hq : q ∈ s.before := by simp [hbefore]
  have hplace : t.place = s.place :=
    hc₁.ops.owner_unique (show o ∈ _ by simp [t.place_ops]) (by simp [d.place])
  obtain ⟨hfront, hafter⟩ : t.before = front ∧ o :: t.after = o :: s.after := by
    have hops := d.place
    rw [← hplace, t.place_ops, hbefore, List.append_assoc] at hops
    exact Position.split_unique (t.place_ops ▸ hc₁.ops.nodup t.place) hops
  have hfirst : t.first.body = first.body :=
    (t.first.eq_body hc₁ (d.evolves.holder hc (first.holder hc))).symm
  obtain ⟨hcontents, hlast⟩ : t.first.contents = first.contents ∧
      [t.first.last] = [first.last] := by
    have hops := d.opsOf_inside h (first.holder hc) (s.region_not_within_before h hq)
    rw [first.ops, ← hfirst, t.first.ops] at hops
    exact List.append_inj' hops rfl
  exact ⟨hplace, hfront, (List.cons.inj hafter).2,
    (t.second.eq_body hc₁ (d.evolves.holder hc (s.team.holder hc))).symm, hfirst, hcontents,
    (List.cons.inj hlast).1⟩

include e

/-- The fusion leaves the copies alone. -/
theorem spares_fuse : Spares ctx σ σ ctx₁ ctx₂ := by
  have hc := h.coherent
  have hc₁ := d.sound.coherent
  have hq : q ∈ s.before := by simp [hbefore]
  have hqplace : q ∈ ctx.opsOf s.place := by simp [s.place_ops, hq]
  have hqex := hc.hasOp_of_mem hqplace
  have hlive {p : OpRef} (hnew : ¬ctx.HasOp p) (hp : ctx₁.HasOp p)
      (hlive : ctx₁.isErased p = false) :
      ¬ctx₂.isErased p := by
    rw [e.erased p hp, hlive]
    rintro (rfl | hw | he)
    · exact hnew s.team.hasOp
    · exact hnew (d.within_tree h hqex (s.region_not_within_before h hq)
        (hw.trans (within_of_above (t.above_last hc₁)))).1
    · exact Bool.false_ne_true he
  refine .of_fixed e.evolves (fun p hnew hp hp' => Bool.eq_false_iff.2 (hlive hnew hp hp'))
    (fun b hnew hb => e.other b ?_ ?_ ?_) fun p hnew hp hp' => ⟨id, fun _ => rfl, ?_⟩
  · have hplace : t.place = s.place :=
      hc₁.ops.owner_unique (show o ∈ _ by simp [t.place_ops]) (by simp [d.place])
    exact fun hb => hnew (hb.trans hplace ▸ s.hasBlock_place h)
  · rintro rfl
    exact hnew (d.evolves.holder_old hc hc₁ hqex (t.first.holder hc₁)).1
  · rintro rfl
    exact hnew (d.evolves.holder_old hc hc₁ s.team.hasOp (t.second.holder hc₁)).1
  · rw [List.map_id]
    exact e.evolves.operandsOf (hlive hnew hp hp') (e.held p (hlive hnew hp hp'))

theorem merged (first : ctx.Team q) : s.Merged first front σ copies barrier ctx₂ := by
  have hq : q ∈ s.before := by simp [hbefore]
  obtain ⟨hplace, hfront, hafter, hsecond, hfirst, hcontents, hlast⟩ :=
    d.fuse_parts h hbefore t first
  refine ⟨d.toRenewed.evolve (d.spares_fuse h hbefore e), d.evolves.trans e.evolves, e.sound,
    ?_, ?_, ?_, fun b hb h₁ h₂ h₃ => ?_, fun p hp => ?_, fun p hp hlive => ?_,
    fun hex => e.isNew (d.evolves.hasOp hex), e.bare⟩
  · rw [← hplace, e.place, hfront, hafter]
  · rw [← hfirst, e.first, hcontents, hsecond, d.body]
  · rw [← hsecond, e.second]
  · rw [e.other b (hplace ▸ h₁) (hfirst ▸ h₂) (hsecond ▸ h₃), d.other b hb h₁ h₃]
  · have hwithin : ctx₁.Within p first.last ↔ ctx.Within p first.last :=
      ⟨d.within_old h hp, fun hw => d.within h hw
        (s.apart h hq (hw.trans (within_of_above ((h.coherent.above_of_mem
          (b := first.body) (by simp [first.ops])).trans (first.holder h.coherent))))).1⟩
    rw [e.erased p (d.evolves.hasOp hp), hlast, hwithin, d.erased p hp]
  · rw [e.held p hlive, d.held p hp fun he => hlive (e.evolves.erased p he)]

end Queue.Done

end Context

namespace Parallel

open Context

variable {ctx : Context} {root o : OpRef}

/-! ## The moves -/

/-- Where the way back from a region ends: at another region, or where nothing may move. -/
def Ends {moved : List OpRef} (s : ctx.Queue o moved) : Stop → Prop
  | .atRegion q => ∃ front, s.before = front ++ [q] ∧ ctx.kindOf q = .parallel
  | .atWall => ∀ front q, s.before = front ++ [q] →
      ctx.kindOf q ≠ .parallel ∧ ¬ctx.Movable o moved q

/-- The way back ends before an operation that may not move. -/
theorem Ends.not_movable {moved front : List OpRef} {q : OpRef} {s : ctx.Queue o moved}
    {stop : Stop} (h : Ends s stop) (hbefore : s.before = front ++ [q]) :
    ¬ctx.Movable o moved q := by
  cases stop with
  | atWall => exact (h front q hbefore).2
  | atRegion q' =>
    obtain ⟨front', hbefore', hregion⟩ := h
    obtain ⟨-, hsame⟩ := List.append_inj' (hbefore'.symm.trans hbefore) rfl
    obtain rfl := (List.cons.inj hsame).1
    exact fun hmovable => hmovable.kind hregion

/-- The state of moving operations into a region, after some of them have moved. -/
structure Moving (ctx : Context) (root o : OpRef) (e : Editor) (count : Nat) where
  moved : List OpRef
  queue : ctx.Queue o moved
  σ : ValueRef → ValueRef
  copies : List OpRef
  done : queue.Done σ copies e.context
  movable : ctx.AllMovable o moved
  tight : e.context.Tight root
  within : e.context.Within o root
  length : moved.length = count

namespace Moving

variable {e e' e'' : Editor} {count count' count'' : Nat}

/-- At the start nothing has moved. -/
def start (h : ctx.Tight root) (ho : ctx.Within o root) (team : ctx.Team o) {b : BlockRef}
    {before after : List OpRef} (hops : ctx.opsOf b = before ++ o :: after) :
    Moving ctx root o { context := ctx } 0 :=
  ⟨[], ⟨team, b, before, after, hops⟩, id, [], Queue.done_nil h.sound _, trivial, h, ho, rfl⟩

/-- A state that further moves lead to: the row has grown at its front. -/
structure Later (m : Moving ctx root o e count) (m' : Moving ctx root o e' count') : Prop where
  place : m'.queue.place = m.queue.place
  after : m'.queue.after = m.queue.after
  split : m'.queue.before ++ m'.moved = m.queue.before ++ m.moved

theorem Later.refl (m : Moving ctx root o e count) : m.Later m := ⟨rfl, rfl, rfl⟩

theorem Later.trans {m : Moving ctx root o e count} {m' : Moving ctx root o e' count'}
    {m'' : Moving ctx root o e'' count''} (h : m.Later m') (h' : m'.Later m'') : m.Later m'' :=
  ⟨h'.place.trans h.place, h'.after.trans h.after, h'.split.trans h.split⟩

/-- The operation before the row is that before the region now. -/
theorem previous_eq (m : Moving ctx root o e count) {front : List OpRef} {q : OpRef}
    (hbefore : m.queue.before = front ++ [q]) : e.context.previous o = .ok (some q) := by
  have hops := m.done.place
  rw [hbefore, List.append_assoc] at hops
  exact previous_ok m.tight.sound.coherent hops

/-- What the operation before the region is now. -/
theorem before_eq (m : Moving ctx root o e count) {q : OpRef}
    (hrun : e.context.previous o = .ok (some q)) : ∃ front, m.queue.before = front ++ [q] := by
  have hc := m.tight.sound.coherent
  obtain ⟨b, front, after, hops⟩ := previous_eq_some hrun
  obtain rfl := hc.ops.owner_unique (show o ∈ e.context.opsOf b by simp [hops])
    (show o ∈ e.context.opsOf m.queue.place by simp [m.done.place])
  have hsplit := m.done.place
  rw [hops, List.append_cons] at hsplit
  exact ⟨front, (Position.split_unique (by
    rw [← List.append_cons, ← hops]
    exact hc.ops.nodup _) hsplit).1.symm⟩

/-- An operation may move if it passes the checks before the next move. -/
theorem movable_iff (m : Moving ctx root o e count) (h : ctx.Sound) {q : OpRef}
    (hq : q ∈ m.queue.before) : ctx.Movable o m.moved q ↔ e.context.kindOf q ≠ .parallel ∧
      e.context.isReadOnly q = .ok true ∧ usedOnlyInside e.context q o = .ok true := by
  rw [m.done.movable_iff h hq, usedOnlyInside_iff m.tight.sound]

/-- The operation before the row moves. -/
theorem exists_next (m : Moving ctx root o e count) (h : ctx.Sound) {front : List OpRef}
    {q : OpRef} (hbefore : m.queue.before = front ++ [q]) (hmovable : ctx.Movable o m.moved q)
    (hrun : absorb e o q = .ok e') : ∃ m' : Moving ctx root o e' (count + 1),
      m.Later m' ∧ m'.queue.before = front := by
  have hs := m.tight.sound
  have hq : q ∈ m.queue.before := by simp [hbefore]
  obtain ⟨hkind, hreadOnly, hused⟩ := (m.done.movable_iff h hq).1 hmovable
  obtain ⟨team⟩ := m.tight.nonempty_team m.within
    ((m.done.evolves.kindOf m.queue.team.hasOp).trans m.queue.team.kind)
  let t : e.context.Absorb o q :=
    ⟨team, m.queue.place, front, m.queue.after, by rw [m.done.place, hbefore]; simp, hkind,
      hreadOnly, fun v hv u hu => hused v hv u.user
        (List.mem_of_getElem? ((hs.coherent.uses.mem_iff v u).1 hu))⟩
  obtain ⟨σ₁, copy, d⟩ := absorb_spec hs t hrun
  exact ⟨⟨q :: m.moved, m.queue.next hbefore, σ₁ ∘ m.σ, copy :: m.copies,
    m.done.cons h m.tight m.within hq d hbefore, ⟨hmovable, m.movable⟩, d.tight m.tight m.within,
    d.within hs m.within (t.region_not_within hs), by rw [List.length_cons, m.length]⟩,
    ⟨rfl, rfl, by rw [hbefore, List.append_assoc]; rfl⟩, rfl⟩

/-- All moves together. They go on until they have to end. -/
theorem run (m : Moving ctx root o e count) (h : ctx.Sound) {n : Nat} {stop : Stop}
    (hn : m.queue.before.length < n)
    (hrun : absorbAll o n e count = .ok (e', count', stop)) :
    ∃ m' : Moving ctx root o e' count', m.Later m' ∧ Ends m'.queue stop := by
  induction n generalizing e count with
  | zero => omega
  | succ n ih =>
    have hhalt (stop' : Stop) (hends : Ends m.queue stop')
        (hrun : (pure (e, count, stop') : Except Fault _) = .ok (e', count', stop)) :
        ∃ m' : Moving ctx root o e' count', m.Later m' ∧ Ends m'.queue stop := by
      simp only [Outcome.pure_eq_ok, Prod.mk.injEq] at hrun
      obtain ⟨rfl, rfl, rfl⟩ := hrun
      exact ⟨m, .refl m, hends⟩
    rw [absorbAll] at hrun
    obtain ⟨found, hfound, hrun⟩ := Outcome.bind_eq_ok.1 hrun
    -- what is before the row, if there is anything
    have hfront {front : List OpRef} {q : OpRef} (hbefore : m.queue.before = front ++ [q]) :
        found = some q := Except.ok.inj (hfound.symm.trans (m.previous_eq hbefore))
    cases found with
    | none => exact hhalt .atWall (fun front q hbefore => by cases hfront hbefore) hrun
    | some q =>
    obtain ⟨front, hbefore⟩ := m.before_eq hfound
    have hq : q ∈ m.queue.before := by simp [hbefore]
    have hex : ctx.HasOp q :=
      h.coherent.hasOp_of_mem (b := m.queue.place) (by simp [m.queue.place_ops, hq])
    have hkindOf := m.done.evolves.kindOf hex
    simp only [Outcome.bind_eq_ok] at hrun
    obtain ⟨answer, hregion, hrun⟩ := hrun
    obtain ⟨-, rfl⟩ := isKind_eq_ok hregion
    split at hrun
    · rename_i hregion
      exact hhalt (.atRegion q)
        ⟨front, hbefore, hkindOf ▸ of_decide_eq_true hregion⟩ hrun
    rename_i hregion
    have hstay (hnot : ¬ctx.Movable o m.moved q) := hhalt .atWall
      fun front' q' hbefore' => by
        obtain rfl := Option.some.inj (hfront hbefore')
        exact ⟨fun hp => hregion (decide_eq_true (hkindOf.trans hp)), hnot⟩
    have hmovable := m.movable_iff h hq
    obtain ⟨readOnly, hreadOnly, hrun⟩ := Outcome.bind_eq_ok.1 hrun
    cases readOnly with
    | false => exact hstay (fun hm => by cases hreadOnly.symm.trans (hmovable.1 hm).2.1) hrun
    | true =>
    obtain ⟨used, hused, hrun⟩ := Outcome.bind_eq_ok.1 hrun
    cases used with
    | false => exact hstay (fun hm => by cases hused.symm.trans (hmovable.1 hm).2.2) hrun
    | true =>
    obtain ⟨e₁, habsorb, hrun⟩ := Outcome.bind_eq_ok.1 hrun
    obtain ⟨m₁, hlater, hshorter⟩ := m.exists_next h hbefore
      (hmovable.2 ⟨fun hp => hregion (decide_eq_true hp), hreadOnly, hused⟩) habsorb
    obtain ⟨m', hlater', hends⟩ := ih m₁ (by
      rw [hbefore, List.length_append, List.length_singleton] at hn
      rw [hshorter]
      omega) hrun
    exact ⟨m', hlater.trans hlater', hends⟩

/-- A region in front of the row is fused with the one behind it. -/
theorem exists_fuse (m : Moving ctx root o e count) (h : ctx.Tight root) {front : List OpRef}
    {q : OpRef} (hbefore : m.queue.before = front ++ [q]) (hregion : ctx.kindOf q = .parallel)
    (hq : ctx.Within q root) (target : ctx.Team q) : ∃ e' barrier, fuse e o q = .ok e' ∧
      m.queue.Merged target front m.σ m.copies barrier e'.context := by
  have hs := m.tight.sound
  have hkind : e.context.kindOf q = .parallel :=
    (m.done.evolves.kindOf target.hasOp).trans hregion
  have hw : e.context.Within q root :=
    m.done.within h.sound hq (m.queue.apart h.sound (q := q) (by simp [hbefore]) (.refl q)).1
  obtain ⟨first⟩ := m.tight.nonempty_team hw hkind
  obtain ⟨second⟩ := m.tight.nonempty_team m.within
    ((m.done.evolves.kindOf m.queue.team.hasOp).trans m.queue.team.kind)
  let t : e.context.Fuse o q :=
    ⟨first, second, m.queue.place, front, m.queue.after, by rw [m.done.place, hbefore]; simp⟩
  have hclosed : e.context.Closed first.last :=
    m.tight.closed first.body q first.last (first.holder hs.coherent) hw hkind
      (by rw [first.ops, List.getLast?_concat])
  obtain ⟨e', barrier, hfuse, -, d⟩ := Parallel.exists_fuse hs t hclosed
  exact ⟨e', barrier, hfuse, m.done.merged h.sound hbefore d target⟩

end Moving

/-! ## The merge -/

/-- What a merge does with a region behind a row that it takes in. -/
inductive Merges {moved : List OpRef} (s : ctx.Queue o moved) :
    Except Fault (Option Editor) → Prop
  | fused {front : List OpRef} {q : OpRef} {target : ctx.Team q} {σ : ValueRef → ValueRef}
      {copies : List OpRef} {barrier : OpRef} {e' : Editor} (before : s.before = front ++ [q])
      (merged : s.Merged target front σ copies barrier e'.context) : Merges s (.ok (some e'))
  | alone {σ : ValueRef → ValueRef} {copies : List OpRef} {e' : Editor}
      (before : ∀ front q, s.before = front ++ [q] → ctx.kindOf q ≠ .parallel)
      (nonempty : moved ≠ []) (done : s.Done σ copies e'.context) : Merges s (.ok (some e'))
  | nothing (before : ∀ front q, s.before = front ++ [q] → ctx.kindOf q ≠ .parallel)
      (empty : moved = []) : Merges s (.ok none)

section

variable {b : BlockRef} {before after : List OpRef}

/-- A region that is behind something, in a scope with another one, is merged by the moves and
    a fusion. -/
theorem merge?_eq (hc : ctx.Coherent) (hkind : ctx.kindOf o = .parallel)
    (hops : ctx.opsOf b = before ++ o :: after) (hbefore : before ≠ [])
    (hother : hasOther ctx o = .ok true) {e₁ : Editor} {count : Nat} {stop : Stop}
    (hall : absorbAll o ((ctx.opsOf b).length + 1) { context := ctx } 0 = .ok (e₁, count, stop)) :
    (stop = .atWall →
      merge? { context := ctx } o = .ok (if count = 0 then none else some e₁)) ∧
    ∀ q e₂, stop = .atRegion q → fuse e₁ o q = .ok e₂ →
      merge? { context := ctx } o = .ok (some e₂) := by
  obtain ⟨row, block, hrow, hrow', hblock, hblock'⟩ :=
    rows_of_mem hc (b := b) (show o ∈ _ by simp [hops])
  have hhead := head?_ne_of_behind hc hops hbefore
  rw [merge?, isKind_ok (hasOp_iff.2 ⟨row, hrow⟩), Outcome.ok_bind]
  simp only [hkind, decide_true, Bool.not_true, Bool.false_eq_true, if_false, hrow, Outcome.ok_bind,
    hrow', hblock, hblock', if_neg hhead, hother, hall]
  refine ⟨?_, ?_⟩
  · rintro rfl
    rfl
  · rintro q e₂ rfl hfuse
    simp only [hfuse, Outcome.ok_bind]
    rfl

variable {path text : String} {findings : Findings}

/-- What a merge does in a valid program, with a region that is behind something and has
    another one in its scope. -/
theorem merge_effect (hread : Context.empty.read path text = (.ok root, ctx))
    (hfindings : ctx.findings root = .ok findings) (hvalid : findings.isEmpty)
    (hkind : ctx.kindOf o = .parallel) (hops : ctx.opsOf b = before ++ o :: after)
    (hbefore : before ≠ []) {scope other : OpRef} (hscope : ctx.ScopeOf o scope)
    (hother : ctx.Within other scope) (hregion : ctx.kindOf other = .parallel)
    (houtside : ¬ctx.Within other o) :
    ∃ (moved : List OpRef) (s : ctx.Queue o moved), s.place = b ∧ s.after = after ∧
      s.before ++ moved = before ∧ ctx.AllMovable o moved ∧
      (∀ front q, s.before = front ++ [q] → ¬ctx.Movable o moved q) ∧
      (∀ m ∈ moved, ∀ z, ctx.Within z m → ∀ v ∈ ctx.operandsOf z, Visible ctx m z v) ∧
      Merges s (merge? { context := ctx } o) := by
  have h := tight_of_read hread hfindings hvalid
  have hs := h.sound
  have hc := hs.coherent
  have hall {p : OpRef} (hp : ctx.HasOp p) : ctx.Within p root := Build.read_within hread hp
  have hex : ctx.HasOp o := hc.hasOp_of_mem (b := b) (by simp [hops])
  obtain ⟨team⟩ := h.nonempty_team (hall hex) hkind
  have hyes : hasOther ctx o = .ok true := hasOther_ok h.sound hex hscope hother hregion houtside
  obtain ⟨e₁, count, stop, hrun, -⟩ :=
    exists_absorbAll (e := { context := ctx }) h (hall hex) hkind ((ctx.opsOf b).length + 1) 0
  obtain ⟨m, hlater, hends⟩ := (Moving.start h (hall hex) team hops).run hs
    (show before.length < _ by rw [hops, List.length_append]; omega) hrun
  have hmoved {p : OpRef} (hp : p ∈ m.moved) : ctx.Within p root :=
    hall (hc.hasOp_of_mem (b := m.queue.place) (by simp [m.queue.place_ops, hp]))
  refine ⟨m.moved, m.queue, hlater.place, hlater.after, hlater.split.trans (List.append_nil before),
    m.movable, fun front q => hends.not_movable, fun p hp z hz => h.visible hz (hmoved hp), ?_⟩
  obtain ⟨hwall, hfused⟩ := merge?_eq hc hkind hops hbefore hyes hrun
  cases stop with
  | atWall =>
    have hfront (front : List OpRef) (q : OpRef) (hfront : m.queue.before = front ++ [q]) :
        ctx.kindOf q ≠ .parallel := (hends front q hfront).1
    have hempty : m.moved = [] ↔ count = 0 := by rw [← List.length_eq_zero_iff, m.length]
    rw [hwall rfl]
    split
    · rename_i hzero
      exact .nothing hfront (hempty.2 hzero)
    · rename_i hsome
      exact .alone hfront (mt hempty.1 hsome) m.done
  | atRegion q =>
    obtain ⟨front, hfront, hparallel⟩ := hends
    have hq : ctx.Within q root :=
      hall (hc.hasOp_of_mem (b := m.queue.place) (by simp [m.queue.place_ops, hfront]))
    obtain ⟨target⟩ := h.nonempty_team hq hparallel
    obtain ⟨e₂, barrier, hfuse, hmerged⟩ := m.exists_fuse h hfront hparallel hq target
    rw [hfused q e₂ rfl hfuse]
    exact .fused hfront hmerged

end

/-- Two regions with a constant and a sum between them. -/
def sumBetween : String :=
  "func.func @f \x7btype = func.fn(core.nil)\x7d \x7b
  omp.parallel \x7b
    omp.terminator
  \x7d
  %c = arith.const \x7bvalue = 1\x7d : core.i32
  %d = arith.add %c, %c : core.i32
  omp.parallel \x7b
    test.use %d
    omp.terminator
  \x7d
  func.return
\x7d"

set_option maxRecDepth 100000 in
/-- Both move into the second region, which is then fused with the first. -/
theorem merge_effect_sumBetween : ∃ root ctx e', ∃ (moved : List OpRef) (s : ctx.Queue ⟨6⟩ moved),
    Context.empty.read "f" sumBetween = (.ok root, ctx) ∧
      merge? { context := ctx } ⟨6⟩ = .ok (some e') ∧ s.before ++ moved = [⟨1⟩, ⟨2⟩, ⟨3⟩] ∧
      ctx.AllMovable ⟨6⟩ moved ∧ Merges s (.ok (some e')) := by
  have hreads : Build.readsAs "f" sumBetween fun root ctx =>
      decide (ctx.kindOf ⟨6⟩ = .parallel ∧ ctx.opsOf ⟨0⟩ = [⟨1⟩, ⟨2⟩, ⟨3⟩] ++ ⟨6⟩ :: [⟨7⟩] ∧
        ctx.kindOf ⟨1⟩ = .parallel ∧ (scopeOf ctx ⟨6⟩).toOption = some root ∧
        (ctx.isAncestor ⟨6⟩ ⟨1⟩).toOption = some false ∧
        (merge? { context := ctx } ⟨6⟩).toOption.join.isSome) :=
    Build.readsAs_ofList (by decide +kernel)
  obtain ⟨root, ctx, findings, hread, hfindings, hvalid, htest⟩ := Build.exists_of_readsAs hreads
  obtain ⟨hkind, hops, hregion, hscope, hancestor, hsome⟩ := of_decide_eq_true htest
  obtain ⟨e', hmerge⟩ := Outcome.exists_of_isSome hsome
  obtain ⟨hs, -⟩ := Build.read_built hread
  have hex {p : OpRef} (hp : p ∈ ctx.opsOf ⟨0⟩) : ctx.HasOp p := hs.coherent.hasOp_of_mem hp
  have hex₁ : ctx.HasOp ⟨1⟩ := hex (by simp [hops])
  have hex₆ : ctx.HasOp ⟨6⟩ := hex (by simp [hops])
  have houtside : ¬ctx.Within ⟨1⟩ ⟨6⟩ := fun hw => by
    rw [(hs.grounded.isAncestor_iff hs.coherent hex₁).2 hw] at hancestor
    cases hancestor
  obtain ⟨moved, s, -, -, hsplit, hmovable, -, -, heffect⟩ :=
    merge_effect hread hfindings hvalid hkind hops (by simp)
      (scopeOf_spec hs hex₆ (Outcome.eq_ok_of_toOption hscope)) (Build.read_within hread hex₁)
      hregion houtside
  rw [hmerge] at heffect
  exact ⟨root, ctx, e', moved, s, hread, hmerge, hsplit, hmovable, heffect⟩

end Parallel

end Offload
