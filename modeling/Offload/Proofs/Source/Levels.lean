import Offload.Proofs.Ir.Nesting
import Offload.Proofs.Source.Types

/-!
# How many levels suffice

Types are spelled out, and trees of operations looked through, down to a number of levels. As
many levels as there are types, or operations, suffice for everything that some number of levels
suffices for (`Quote.type_of_within`, `Context.subtree_of_within`), in every context.

The argument is the same for both (`reached_of_levels`): whatever needs one more level than
another thing needs a part that needs just one less, so a level at which nothing new is reached
is the last one, and until then every level reaches something new.
-/

namespace Offload

/-- What is reached in some number of levels is reached in as many as there are things, if a level
    at which nothing is new is followed by no other. -/
theorem reached_of_levels (reached : Nat → Nat → Prop) {size : Nat}
    (hlt : ∀ n i, reached n i → i < size) (hmono : ∀ n i, reached n i → reached (n + 1) i)
    (hstep : ∀ n, (∀ i, reached (n + 1) i → reached n i) →
      ∀ i, reached (n + 2) i → reached (n + 1) i)
    {n i : Nat} (h : reached n i) : reached size i := by
  classical
  let within (n : Nat) : Finset Nat := (Finset.range size).filter (reached n)
  -- either nothing is new at a level, or each one up to it has brought something
  have hgrow (n : Nat) : (∀ i, reached (n + 1) i → reached n i) ∨ n < (within (n + 1)).card := by
    have hnew {n : Nat} (hn : ¬∀ i, reached (n + 1) i → reached n i) :
        (within n).card < (within (n + 1)).card := by
      obtain ⟨i, hi, hnot⟩ : ∃ i, reached (n + 1) i ∧ ¬reached n i := by simpa using hn
      refine Finset.card_lt_card ((Finset.ssubset_iff_of_subset fun j hj => ?_).2 ⟨i, ?_, ?_⟩)
      · rw [Finset.mem_filter] at hj ⊢
        exact ⟨hj.1, hmono n j hj.2⟩
      · exact Finset.mem_filter.2 ⟨Finset.mem_range.2 (hlt _ i hi), hi⟩
      · exact fun hmem => hnot (Finset.mem_filter.1 hmem).2
    induction n with
    | zero =>
      by_cases hn : ∀ i, reached (0 + 1) i → reached 0 i
      · exact .inl hn
      · exact .inr (Nat.zero_lt_of_lt (hnew hn))
    | succ n ih =>
      by_cases hn : ∀ i, reached (n + 1 + 1) i → reached (n + 1) i
      · exact .inl hn
      · exact .inr (Nat.lt_of_le_of_lt (ih.resolve_left fun hlast => hn (hstep n hlast)) (hnew hn))
  have hcard : (within (size + 1)).card ≤ size := by
    simpa using Finset.card_filter_le (Finset.range size) (reached (size + 1))
  have hlast : ∀ i, reached (size + 1) i → reached size i :=
    (hgrow size).resolve_right (Nat.not_lt.2 hcard)
  have hlater (m : Nat) : (∀ i, reached (size + m + 1) i → reached (size + m) i) ∧
      ∀ i, reached (size + m) i → reached size i := by
    induction m with
    | zero => exact ⟨hlast, fun _ => id⟩
    | succ m ih => exact ⟨hstep _ ih.1, fun i hi => ih.2 i (ih.1 i hi)⟩
  have hmore (m : Nat) : reached (n + m) i := by
    induction m with
    | zero => exact h
    | succ m ih => exact hmono _ i ih
  exact (hlater n).2 i (Nat.add_comm n size ▸ hmore size)

open Context

variable {ctx : Context}

namespace Quote

/-- What can be spelled out in one level more can be, if its parts can in one more. -/
theorem typeWithin_step {n m : Nat}
    (h : ∀ t term, typeWithin ctx n t = .ok term → typeWithin ctx m t = .ok term) (t : TypeRef)
    (term : TypeTerm) (ht : typeWithin ctx (n + 1) t = .ok term) :
    typeWithin ctx (m + 1) t = .ok term := by
  rw [typeWithin_succ] at ht ⊢
  obtain ⟨node, hnode, ht⟩ := Outcome.bind_eq_ok.1 ht
  obtain ⟨params, hparams, ht⟩ := Outcome.bind_eq_ok.1 ht
  obtain ⟨es, hes, ht⟩ := Outcome.bind_eq_ok.1 ht
  have hparams' := Outcome.mapM_eq_ok.2 ((Outcome.mapM_eq_ok.1 hparams).imp h)
  rw [hnode, Outcome.ok_bind, hparams', Outcome.ok_bind, entries_mono (.refl ctx) h hes]
  exact ht

/-- A type that can be spelled out at all is, however many levels it takes. -/
theorem type_of_within {n : Nat} {t : TypeRef} {term : TypeTerm}
    (h : typeWithin ctx n t = .ok term) : type ctx t = .ok term := by
  have hsize : ∃ term, typeWithin ctx ctx.types.size t = .ok term := by
    refine reached_of_levels (fun n i => ∃ term, typeWithin ctx n ⟨i⟩ = .ok term)
      ?_ ?_ ?_ (n := n) (i := t.index) ⟨term, h⟩
    · rintro n i ⟨term, hi⟩
      exact lt_size_of_typeWithin hi
    · rintro n i ⟨term, hi⟩
      exact ⟨term, typeWithin_mono (.refl ctx) (Nat.le_succ n) hi⟩
    · rintro n hlast i ⟨term, hi⟩
      refine ⟨term, typeWithin_step (fun t term ht => ?_) _ term hi⟩
      obtain ⟨term', ht'⟩ := hlast t.index ⟨term, ht⟩
      rwa [Except.ok.inj (ht.symm.trans (typeWithin_mono (.refl ctx) (Nat.le_succ n) ht'))]
  obtain ⟨term', h'⟩ := hsize
  -- both numbers of levels give what as many as either give
  have hle := typeWithin_mono (.refl ctx) (Nat.le_max_left n ctx.types.size) h
  have hle' := typeWithin_mono (.refl ctx) (Nat.le_max_right n ctx.types.size) h'
  rw [← Except.ok.inj (hle'.symm.trans hle)]
  exact typeWithin_mono (.refl ctx) (Nat.le_succ _) h'

/-- The term of a type is made of the terms of its parts. -/
theorem type_of_parts {t : TypeRef} {node : TypeNode} {params : List TypeTerm} {es : List Entry}
    (ht : ctx.type t = .ok node) (hparams : node.params.mapM (type ctx) = .ok params)
    (hes : entries ctx (type ctx) node.attributes.entries = .ok es) :
    type ctx t = .ok (.mk node.dialect node.name params es) := by
  have hwithin : typeWithin ctx (ctx.types.size + 1 + 1) t =
      .ok (.mk node.dialect node.name params es) := by
    rw [typeWithin_succ, ht, Outcome.ok_bind]
    change (node.params.mapM (type ctx) >>= fun params =>
      entries ctx (type ctx) node.attributes.entries >>= fun es =>
        pure (TypeTerm.mk node.dialect node.name params es)) = _
    rw [hparams, Outcome.ok_bind, hes]
    rfl
  exact type_of_within hwithin

end Quote

namespace Context

/-- What lies under an operation is seen in one level more if it is under its children in one
    more. -/
theorem subtreeWithin_step {n m : Nat}
    (h : ∀ o, (∃ l, ctx.subtreeWithin n o = .ok l) → ∃ l, ctx.subtreeWithin m o = .ok l) (o : OpRef)
    (ho : ∃ l, ctx.subtreeWithin (n + 1) o = .ok l) : ∃ l, ctx.subtreeWithin (m + 1) o = .ok l := by
  obtain ⟨l, ho⟩ := ho
  rw [subtreeWithin] at ho
  obtain ⟨cs, hcs, ho⟩ := Outcome.bind_eq_ok.1 ho
  obtain ⟨l, hl, -⟩ := Outcome.bind_eq_ok.1 ho
  obtain ⟨ls, hls, -⟩ := Outcome.flatMapM_eq_ok.1 hl
  obtain ⟨l', hl'⟩ := Outcome.flatMapM_ok fun c hc => by
    obtain ⟨lc, -, hlc⟩ := Outcome.exists_of_mem_left hls hc
    exact h c ⟨lc, hlc⟩
  exact ⟨o :: l', by rw [subtreeWithin, hcs, Outcome.ok_bind, hl']; rfl⟩

theorem hasOp_of_subtreeWithin {n : Nat} {o : OpRef} {l : List OpRef}
    (h : ctx.subtreeWithin n o = .ok l) : ctx.HasOp o := by
  cases n with
  | zero => cases h
  | succ n => exact (subtreeWithin_succ_eq_ok h).1

/-- A tree that ends at all is seen, however deep it is. -/
theorem subtree_of_within {n : Nat} {o : OpRef} {l : List OpRef}
    (h : ctx.subtreeWithin n o = .ok l) : ∃ l, ctx.subtree o = .ok l := by
  have hmono (n : Nat) : ∀ o, (∃ l, ctx.subtreeWithin n o = .ok l) →
      ∃ l, ctx.subtreeWithin (n + 1) o = .ok l := by
    induction n with
    | zero => exact fun o ⟨l, ho⟩ => by cases ho
    | succ n ih => exact subtreeWithin_step ih
  refine hmono _ o (reached_of_levels (fun n i => ∃ l, ctx.subtreeWithin n ⟨i⟩ = .ok l)
    ?_ ?_ ?_ (n := n) (i := o.index) ⟨l, h⟩)
  · rintro n i ⟨l, hi⟩
    exact hasOp_of_subtreeWithin hi
  · exact fun n i => hmono n ⟨i⟩
  · exact fun n hlast i => subtreeWithin_step (fun o => hlast o.index) ⟨i⟩

end Context

end Offload
