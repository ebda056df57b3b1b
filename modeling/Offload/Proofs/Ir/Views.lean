import Offload.Proofs.Ir.Walk
import Offload.Proofs.Source.Build

/-!
# Two views of nesting

Downward, nesting is told by lists: an operation lists its regions, a region its
blocks, a block its operations. Upward, it is told by owners, one step at a time.
In a sound context both tell the same (`Sound.nesting_views`):

* what is listed under a root is what leads up to it, each operation once, and
  before what is nested in it (`Unfolds`);
* of the operations with a property around an operation, the way up gives the one
  that is nested in all others, and none only if there is none (`Innermost`);
* the way up ends of itself: more steps than there are operations change no answer.
-/

namespace Offload.Context

variable {ctx : Context} {root o a : OpRef}

/-! ## Looking down -/

/-- A list has the operations that lead up to a root, other than the root itself, each
    once, and before the operations that lead up to it. -/
structure Unfolds (ctx : Context) (root : OpRef) (l : List OpRef) : Prop where
  nodup : l.Nodup
  mem_iff : ∀ o, o ∈ l ↔ ctx.HasOp o ∧ o ≠ root ∧ ctx.isAncestor root o = .ok true
  order : ∀ o ∈ l, ∀ q ∈ l, q ≠ o → ctx.isAncestor o q = .ok true → l.idxOf o < l.idxOf q

/-- If nothing is related to what comes later, what is related comes first. -/
theorem idxOf_lt_of_pairwise {α : Type} [BEq α] [LawfulBEq α] {r : α → α → Prop} {l : List α}
    (h : l.Pairwise fun x y => ¬r x y) {x y : α} (hx : x ∈ l) (hy : y ∈ l) (hne : y ≠ x)
    (hyx : r y x) : l.idxOf x < l.idxOf y := by
  have hlx := List.idxOf_lt_length_of_mem hx
  have hly := List.idxOf_lt_length_of_mem hy
  refine lt_of_le_of_ne (Nat.le_of_not_lt fun hlt => ?_) fun e => ?_
  · have := List.pairwise_iff_getElem.1 h _ _ hly hlx hlt
    rw [List.getElem_idxOf, List.getElem_idxOf] at this
    exact this hyx
  · exact hne ((List.idxOf_inj hx).1 e).symm

theorem Sound.nested_unfolds (h : ctx.Sound) (hroot : ctx.HasOp root) :
    ∃ l, ctx.nested root = .ok l ∧ ctx.Unfolds root l := by
  have hc := h.coherent
  have hg := h.grounded
  obtain ⟨tree, htree⟩ := hg.subtree_ok hc hroot
  obtain ⟨-, ls, -, rfl⟩ := subtreeWithin_succ_eq_ok htree
  have hmem (q : OpRef) : q ∈ root :: ls.flatten ↔ ctx.Within q root := hc.mem_subtree_iff htree
  obtain ⟨hnot, hnodup⟩ := List.nodup_cons.1 (hg.nodup_subtree hc htree)
  have hpairwise := (List.pairwise_cons.1 (hg.pairwise_subtree hc htree)).2
  have hop (q : OpRef) (hq : q ∈ ls.flatten) : ctx.HasOp q :=
    hc.hasOp_of_within' ((hmem q).1 (List.mem_cons_of_mem root hq)) hroot
  refine ⟨ls.flatten, by rw [nested, htree]; rfl, hnodup, fun q => ?_, fun p hp q hq hne hw => ?_⟩
  · constructor
    · intro hq
      refine ⟨hop q hq, fun e => hnot (e ▸ hq), (hg.isAncestor_iff hc (hop q hq)).2 ?_⟩
      exact (hmem q).1 (List.mem_cons_of_mem root hq)
    · rintro ⟨hq, hne, hw⟩
      have hw := (hmem q).2 ((hg.isAncestor_iff hc hq).1 hw)
      exact (List.mem_cons.1 hw).resolve_left hne
  · exact idxOf_lt_of_pairwise hpairwise hp hq hne ((hg.isAncestor_iff hc (hop q hq)).1 hw)

/-! ## Looking up -/

/-- In as many steps as there are operations, whether one leads up to another is known. -/
theorem Sound.isAncestorWithin_eq (h : ctx.Sound) (a : OpRef) (ho : ctx.HasOp o) {n : Nat}
    (hn : ctx.ops.size ≤ n) : ctx.isAncestorWithin a n o = ctx.isAncestor a o := by
  have hc := h.coherent
  obtain ⟨answer, hanswer⟩ := hc.isAncestorWithin_ok a (n := n) ho
  obtain ⟨answer', hanswer'⟩ := hc.isAncestorWithin_ok a (n := ctx.ops.size + 1) ho
  have hiff := h.grounded.isAncestorWithin_iff hc (a := a) hn ho
  have hiff' := h.grounded.isAncestor_iff hc (a := a) ho
  rw [isAncestor, hanswer'] at hiff' ⊢
  rw [hanswer] at hiff ⊢
  rw [Except.ok.injEq] at hiff hiff' ⊢
  exact Bool.eq_iff_iff.2 (hiff.trans hiff'.symm)

/-- An operation with a property is around another one. -/
def Encloses (ctx : Context) (p : Operation → Bool) (o a : OpRef) : Prop :=
  a ≠ o ∧ ctx.isAncestor a o = .ok true ∧ ∃ row, ctx.op a = .ok row ∧ p row

/-- Of the operations with a property around an operation, the one that is nested in all
    others; nothing, if there is none. -/
def Innermost (ctx : Context) (p : Operation → Bool) (o : OpRef) : Option OpRef → Prop
  | some a => ctx.Encloses p o a ∧ ∀ q, ctx.Encloses p o q → ctx.isAncestor q a = .ok true
  | none => ∀ a, ¬ctx.Encloses p o a

section Innermost

variable {p : Operation → Bool}

theorem Sound.around_iff (h : ctx.Sound) (ho : ctx.HasOp o) :
    ctx.Around a o ↔ a ≠ o ∧ ctx.isAncestor a o = .ok true := by
  rw [h.grounded.isAncestor_iff h.coherent ho]
  constructor
  · rintro ⟨t, ht, hw⟩
    refine ⟨?_, (within_of_above ht).trans hw⟩
    rintro rfl
    exact h.grounded.not_within_above ht hw
  · rintro ⟨hne, hw⟩
    exact (within_iff_above.1 hw).resolve_left hne.symm

theorem Sound.encloses_iff (h : ctx.Sound) (ho : ctx.HasOp o) :
    ctx.Encloses p o a ↔ ctx.Around a o ∧ ∃ row, ctx.op a = .ok row ∧ p row := by
  rw [h.around_iff ho, Encloses, and_assoc]

/-- There is one innermost operation at most. -/
theorem Sound.innermost_unique (h : ctx.Sound) (ho : ctx.HasOp o) {x y : Option OpRef}
    (hx : ctx.Innermost p o x) (hy : ctx.Innermost p o y) : x = y := by
  cases x with
  | none =>
    cases y with
    | none => rfl
    | some b => exact absurd hy.1 (hx b)
  | some a =>
    cases y with
    | none => exact absurd hx.1 (hy a)
    | some b =>
      have hop {q : OpRef} (hq : ctx.Encloses p o q) : ctx.HasOp q :=
        h.coherent.hasOp_of_within ((h.encloses_iff ho).1 hq).1.within ho
      have hab := (h.grounded.isAncestor_iff h.coherent (hop hx.1)).1 (hx.2 b hy.1)
      have hba := (h.grounded.isAncestor_iff h.coherent (hop hy.1)).1 (hy.2 a hx.1)
      rw [h.grounded.antisymm hab hba]

theorem Sound.innermost_of_enclosingWithin (h : ctx.Sound) (ho : ctx.HasOp o) {n : Nat}
    (hn : ctx.ops.size ≤ n) {found : Option OpRef}
    (hrun : ctx.enclosingWithin p n o = .ok found) : ctx.Innermost p o found := by
  have hc := h.coherent
  have hg := h.grounded
  cases found with
  | none =>
    intro q hq
    obtain ⟨haround, row, hrow, hp⟩ := (h.encloses_iff ho).1 hq
    rw [hg.enclosingWithin_eq_none hc ho hn hrun q haround row hrow] at hp
    cases hp
  | some a =>
    obtain ⟨haround, hrow, hfirst⟩ := enclosingWithin_eq_some hg hrun
    refine ⟨(h.encloses_iff ho).2 ⟨haround, hrow⟩, fun q hq => ?_⟩
    obtain ⟨haround', row', hrow', hp⟩ := (h.encloses_iff ho).1 hq
    rw [hg.isAncestor_iff hc (hc.hasOp_of_within haround.within ho)]
    by_cases e : q = a
    · exact e ▸ .refl q
    -- both are on the way up from the operation, and `a` is met first
    refine (haround.within.total haround'.within).resolve_right fun hqa => ?_
    rw [hfirst q haround' hqa e row' hrow'] at hp
    cases hp

end Innermost

/-! ## Both views -/

/-- In a sound context looking down and looking up agree, and both come to an end. -/
theorem Sound.nesting_views (h : ctx.Sound) :
    (∀ root, ctx.HasOp root → ∃ l, ctx.nested root = .ok l ∧ ctx.Unfolds root l) ∧
    (∀ p o, ctx.HasOp o → ∃ found, ctx.enclosing p o = .ok found ∧ ctx.Innermost p o found) ∧
    ∀ o n, ctx.HasOp o → ctx.ops.size ≤ n →
      (∀ a, ∃ answer, ctx.isAncestor a o = .ok answer ∧
        ctx.isAncestorWithin a n o = .ok answer) ∧
      ∀ p, ctx.enclosingWithin p n o = ctx.enclosing p o := by
  have hc := h.coherent
  refine ⟨fun root => h.nested_unfolds, fun p o ho => ?_,
    fun o n ho hn => ⟨fun a => ?_, fun p => ?_⟩⟩
  · obtain ⟨found, hfound⟩ := hc.enclosing_ok p ho
    exact ⟨found, hfound, h.innermost_of_enclosingWithin ho (Nat.le_succ _) hfound⟩
  · obtain ⟨answer, hanswer⟩ := hc.isAncestorWithin_ok a (n := n) ho
    exact ⟨answer, (h.isAncestorWithin_eq a ho hn).symm.trans hanswer, hanswer⟩
  · obtain ⟨found, hfound⟩ := hc.enclosingWithin_ok p n ho
    obtain ⟨found', hfound'⟩ := hc.enclosing_ok p ho
    rw [hfound, hfound', h.innermost_unique ho (h.innermost_of_enclosingWithin ho hn hfound)
      (h.innermost_of_enclosingWithin ho (Nat.le_succ _) hfound')]

/-- A loop in a branch of a loop. -/
def loopInBranch : String :=
  "test.top \x7b
  test.loop \x7b test.if \x7b test.loop \x7b test.use \x7d \x7d test.end \x7d
\x7d"

set_option maxRecDepth 100000 in
/-- Of the two loops around the innermost operation the inner one is found. -/
theorem nesting_views_loopInBranch : ∃ root ctx,
    Context.empty.read "f" loopInBranch = (.ok root, ctx) ∧ ctx.Sound ∧
      (ctx.HasOp root ∧ ctx.HasOp ⟨0⟩ ∧ ctx.ops.size = 6) ∧
      ctx.Unfolds root [⟨4⟩, ⟨2⟩, ⟨1⟩, ⟨0⟩, ⟨3⟩] ∧
      ctx.Innermost (·.kind = ⟨"test", "loop"⟩) ⟨0⟩ (some ⟨1⟩) ∧
      ctx.isAncestor root ⟨0⟩ = .ok true ∧ ctx.isAncestorWithin root 6 ⟨0⟩ = .ok true := by
  have hreads : Build.reads "f" loopInBranch fun root ctx =>
      decide (ctx.ops.size = 6 ∧
        (ctx.nested root).toOption = some [⟨4⟩, ⟨2⟩, ⟨1⟩, ⟨0⟩, ⟨3⟩] ∧
        (ctx.enclosing (·.kind = ⟨"test", "loop"⟩) ⟨0⟩).toOption = some (some ⟨1⟩)) :=
    Build.reads_ofList (by decide +kernel)
  obtain ⟨root, ctx, hread, htest⟩ := Build.exists_of_reads hreads
  obtain ⟨hsize, hnested, hfound⟩ := of_decide_eq_true htest
  obtain ⟨hsound, hroot, -, -⟩ := Build.read_built hread
  have ho : ctx.HasOp ⟨0⟩ := by rw [HasOp, hsize]; decide
  obtain ⟨hdown, hup, hends⟩ := hsound.nesting_views
  obtain ⟨l, hl, hunfolds⟩ := hdown root hroot
  obtain rfl := Except.ok.inj ((Outcome.eq_ok_of_toOption hnested).symm.trans hl)
  obtain ⟨found, hrun, hinnermost⟩ := hup (·.kind = ⟨"test", "loop"⟩) ⟨0⟩ ho
  obtain rfl := Except.ok.inj ((Outcome.eq_ok_of_toOption hfound).symm.trans hrun)
  have hancestor := ((hunfolds.mem_iff ⟨0⟩).1 (by simp)).2.2
  obtain ⟨answer, hanswer, hwithin⟩ := (hends ⟨0⟩ 6 ho hsize.le).1 root
  obtain rfl := Except.ok.inj (hancestor.symm.trans hanswer)
  exact ⟨root, ctx, hread, hsound, ⟨hroot, ho, hsize⟩, hunfolds, hinnermost, hanswer, hwithin⟩

end Offload.Context
