import Offload.Dialect.Make
import Offload.Ir.Edit
import Offload.Proofs.Ir.Abreast

/-!
# Programs that are changed alike

The changes of programs, made in two contexts that match at entities that are paired,
agree: where both succeed, the contexts match again.
-/

namespace Offload

open Context

variable {s : Outset} {p : Pairing} {ctx ctx' : Context} {o o' : OpRef} {k k' : BlockRef}

/-! ## Look-ups -/

namespace Match

variable {b : Border} (h : Match b p ctx ctx')

include h

theorem op_agree (ho : p.op o o') : Agree (p.SameOp b o) (ctx.op o) (ctx'.op o') := by
  obtain ⟨row, row', hrow, hrow', hsame⟩ := h.op ho
  rw [hrow, hrow']
  exact .pure hsame

theorem block_agree (hk : p.block k k') : Agree (p.SameBlock b) (ctx.block k) (ctx'.block k') := by
  obtain ⟨row, row', hrow, hrow', hsame⟩ := h.block hk
  rw [hrow, hrow']
  exact .pure hsame

theorem region_agree {r r' : RegionRef} (hr : p.region r r') :
    Agree p.SameRegion (ctx.region r) (ctx'.region r') := by
  obtain ⟨row, row', hrow, hrow', hsame⟩ := h.region hr
  rw [hrow, hrow']
  exact .pure hsame

theorem results (ho : p.Inner b o o') :
    List.Forall₂ p.value (ctx.results o) (ctx'.results o') := by
  obtain ⟨row, row', hrow, hrow', hsame⟩ := h.op ho.1
  rw [results_eq_readOp, results_eq_readOp, readOp_of_op hrow, readOp_of_op hrow']
  exact hsame.results.imp fun _ _ hv => hv ho.2

theorem isErased (ho : p.op o o') : ctx.isErased o = ctx'.isErased o' := by
  obtain ⟨row, row', hrow, hrow', hsame⟩ := h.op ho
  rw [isErased_eq_readOp, isErased_eq_readOp, readOp_of_op hrow, readOp_of_op hrow']
  exact hsame.erased

theorem parentOp (ho : p.Inner b o o') :
    Agree (Option.Rel p.op) (ctx.parentOp o) (ctx'.parentOp o') := by
  rw [Context.parentOp, Context.parentOp]
  refine (h.op_agree ho.1).bind fun row row' hrow => ?_
  obtain ⟨hx, hx'⟩ | ⟨k, k', hx, hx', hk⟩ := rel_cases (hrow.parent.inner ho.2)
  · simp only [hx, hx']
    exact .pure .none
  simp only [hx, hx']
  refine (h.block_agree hk).bind fun row row' hrow => ?_
  obtain ⟨hx, hx'⟩ | ⟨r, r', hx, hx', hr⟩ := rel_cases hrow.parent
  · simp only [hx, hx']
    exact .pure .none
  simp only [hx, hx']
  exact (h.region_agree hr).bind fun row row' hrow => .pure hrow.parent

theorem terminator? (hk : p.block k k') :
    Agree (Option.Rel (p.Inner b)) (ctx.terminator? k) (ctx'.terminator? k') :=
  (h.block_agree hk).bind fun _ _ hrow => .pure (rel_getLast? hrow.ops)

theorem blockAt (ho : p.op o o') (n : Nat) :
    Agree p.block (ctx.blockAt o n) (ctx'.blockAt o' n) := by
  refine Agree.bind (r := p.region) ?_ fun r r' hr => ?_
  · exact (h.op_agree ho).bind fun _ _ hrow => .found (forall₂_getElem? hrow.regions n)
  · refine Agree.bind (r := Option.Rel p.block) ?_ fun _ _ hk => .found hk
    exact (h.region_agree hr).bind fun _ _ hrow => .pure (rel_head? hrow.blocks)

theorem kind_agree (ho : p.op o o') : Agree (· = ·) (ctx.kind o) (ctx'.kind o') :=
  (h.op_agree ho).bind fun _ _ hrow => .pure hrow.kind

theorem isKind (ho : p.op o o') (kind : OpKind) :
    Agree (· = ·) (ctx.isKind o kind) (ctx'.isKind o' kind) := by
  exact (h.kind_agree ho).bind fun k k' hk => .pure (by rw [hk])

theorem children (ho : p.op o o') :
    Agree (List.Forall₂ (p.Inner b)) (ctx.children o) (ctx'.children o') := by
  refine (h.op_agree ho).bind fun row row' hrow => .flatMapM hrow.regions fun r r' hr => ?_
  refine (h.region_agree hr).bind fun row row' hrow => .flatMapM hrow.blocks fun k k' hk => ?_
  exact (h.block_agree hk).bind fun row row' hrow => .pure hrow.ops

theorem subtreeWithin (n n' : Nat) (ho : p.op o o') :
    Agree (List.Forall₂ p.op) (ctx.subtreeWithin n o) (ctx'.subtreeWithin n' o') := by
  induction n generalizing n' o o' with
  | zero => exact .throw_left
  | succ n ih =>
    cases n' with
    | zero => exact .throw_right
    | succ n' =>
      refine (h.children ho).bind fun cs cs' hcs => ?_
      exact (Agree.flatMapM hcs fun c c' hc => ih n' hc.1).bind fun l l' hl => .pure (.cons ho hl)

theorem subtree (ho : p.op o o') : Agree (List.Forall₂ p.op) (ctx.subtree o) (ctx'.subtree o') :=
  h.subtreeWithin _ _ ho

end Match

namespace Abreast

variable (h : Abreast s p ctx ctx')

include h

/-! ## Attachment -/

theorem pushOp (hk : p.block k k') (ho : p.Inner s.border o o') :
    Agree (Abreast s p) (ctx.pushOp k o) (ctx'.pushOp k' o') := by
  refine (h.op_agree ho.1).bind fun row row' hrow => ?_
  obtain ⟨hx, hx'⟩ | ⟨k, k', hx, hx', -⟩ := rel_cases (hrow.parent.inner ho.2)
  · simp only [hx, hx']
    exact (h.block_agree hk).bind fun _ _ _ => .pure (h.append hk ho)
  · simp only [hx]
    exact .throw_left

theorem insertOpAt (hk : p.block k k') (ho : p.Inner s.border o o') (position : Nat) :
    Agree (Abreast s p) (ctx.insertOpAt k position o) (ctx'.insertOpAt k' position o') := by
  refine (h.op_agree ho.1).bind fun row row' hrow => ?_
  obtain ⟨hx, hx'⟩ | ⟨k, k', hx, hx', -⟩ := rel_cases (hrow.parent.inner ho.2)
  · simp only [hx, hx']
    refine (h.block_agree hk).bind fun row row' hrow => ?_
    refine .ite (by rw [hrow.ops.length_eq]) (fun _ => .throw_left) fun _ => .pure ?_
    exact (h.relist hk fun l l' hl => forall₂_insertIdx hl ho position).place ho (.some hk)
  · simp only [hx]
    exact .throw_left

theorem insertOpBefore (hk : p.block k k') {anchor anchor' : OpRef} (ha : p.op anchor anchor')
    (ho : p.Inner s.border o o') :
    Agree (Abreast s p) (ctx.insertOpBefore k anchor o) (ctx'.insertOpBefore k' anchor' o') := by
  refine (h.block_agree hk).bind fun row row' hrow => ?_
  rw [p.op.idxOf? ha (hrow.ops.imp fun _ _ => And.left)]
  cases row'.ops.idxOf? anchor' with
  | none => exact .throw_left
  | some position => exact h.insertOpAt hk ho position

theorem removeOpFromBlock (hk : p.block k k') (ho : p.Inner s.border o o') :
    Agree (Abreast s p) (ctx.removeOpFromBlock k o) (ctx'.removeOpFromBlock k' o') := by
  refine (h.block_agree hk).bind fun _ _ _ => (h.op_agree ho.1).bind fun row row' hrow => .pure ?_
  have hfilter (l l' : List OpRef) (hl : List.Forall₂ (p.Inner s.border) l l') :
      List.Forall₂ (p.Inner s.border) (l.filter (· ≠ o)) (l'.filter (· ≠ o')) :=
    List.rel_filter (fun q q' hq => by simp [p.op.iff hq.1 ho.1]) hl
  have h₁ := h.relist hk hfilter
  have hiff : row.parent = some k ↔ row'.parent = some k' := by
    obtain ⟨hx, hx'⟩ | ⟨c, c', hx, hx', hc⟩ := rel_cases (hrow.parent.inner ho.2)
    · rw [hx, hx']
      simp
    · rw [hx, hx', Option.some.injEq, Option.some.injEq, p.block.iff hc hk]
  by_cases hp : row.parent = some k
  · rw [if_pos hp, if_pos (hiff.1 hp)]
    exact h₁.place ho .none
  · rw [if_neg hp, if_neg fun hp' => hp (hiff.2 hp')]
    exact h₁

theorem detachOp (ho : p.Inner s.border o o') :
    Agree (Abreast s p) (ctx.detachOp o) (ctx'.detachOp o') := by
  refine (h.op_agree ho.1).bind fun row row' hrow => ?_
  obtain ⟨hx, hx'⟩ | ⟨k, k', hx, hx', hk⟩ := rel_cases (hrow.parent.inner ho.2)
  · simp only [hx, hx']
    exact .pure h
  · simp only [hx, hx']
    exact h.removeOpFromBlock hk ho

theorem moveOpBefore {anchor anchor' : OpRef} (ha : p.Inner s.border anchor anchor')
    (ho : p.Inner s.border o o') :
    Agree (Abreast s p) (ctx.moveOpBefore o anchor) (ctx'.moveOpBefore o' anchor') := by
  refine (h.op_agree ha.1).bind fun row row' hrow => ?_
  obtain ⟨hx, hx'⟩ | ⟨k, k', hx, hx', hk⟩ := rel_cases (hrow.parent.inner ha.2)
  · simp only [hx]
    exact .throw_left
  · simp only [hx, hx']
    exact (h.detachOp ho).bind fun _ _ h => h.insertOpBefore hk ha.1 ho

/-! ## Uses -/

theorem dropUsesOf {os os' : List OpRef} (hos : List.Forall₂ p.op os os') :
    Agree (Abreast s p) (ctx.dropUsesOf os) (ctx'.dropUsesOf os') := by
  induction hos generalizing ctx ctx' with
  | nil => exact .pure h
  | cons ho _ ih =>
    exact (h.op_agree ho).bind fun row row' hrow => ih (h.dropUses ho 0 hrow.operands)

theorem redirect {old old' new new' : ValueRef} (hold : p.value old old')
    (hnew : p.Operand s.border new new') {us us' : List Use} (hus : List.Forall₂ p.Use us us') :
    Agree (Abreast s p) (Context.redirect old new ctx us)
      (Context.redirect old' new' ctx' us') := by
  induction hus generalizing ctx ctx' with
  | nil => exact .pure h
  | @cons u u' us us' hu _ ih =>
    obtain ⟨user, slot⟩ := u
    obtain ⟨user', slot'⟩ := u'
    obtain ⟨hu, rfl⟩ : p.op user user' ∧ slot = slot' := hu
    refine (h.op_agree hu).bind fun row row' hrow => ?_
    refine (Agree.found (forall₂_getElem? hrow.operands slot)).bind fun held held' hheld => ?_
    refine .ite (not_congr ?_) (fun _ => .throw_left) fun _ => ?_
    · rw [eq_comm, h.eq_iff hold hheld, eq_comm]
    refine ih ((h.modifyOp hu fun row row' hrow => ?_).pushUse hnew ⟨hu, rfl⟩)
    exact { hrow with operands := forall₂_set hrow.operands hnew slot }

theorem replaceAllUses {old old' new new' : ValueRef} (hold : p.value old old')
    (hnew : p.Operand s.border new new') :
    Agree (Abreast s p) (ctx.replaceAllUses old new) (ctx'.replaceAllUses old' new') := by
  refine .ite (h.eq_iff hold hnew) (fun _ => .pure h) fun _ => ?_
  exact (h.setUses (.inl hold) fun _ => .nil).redirect hold hnew (h.uses hold)

/-! ## Erasure and creation -/

theorem eraseOp (ho : p.Inner s.border o o') :
    Agree (Abreast s p) (ctx.eraseOp o) (ctx'.eraseOp o') := by
  refine (h.op_agree ho.1).bind fun row row' hrow => ?_
  obtain ⟨hx, hx'⟩ | ⟨k, k', hx, hx', hk⟩ := rel_cases (hrow.parent.inner ho.2)
  · simp only [hx, hx']
    refine (h.subtree ho.1).bind fun tree tree' htree => ?_
    refine (h.dropUsesOf htree).bind fun ctx₁ ctx₁' h₁ => ?_
    refine Agree.bind (r := fun _ _ => True) (fun _ _ _ _ => trivial) fun _ _ _ => .pure ?_
    exact h₁.erase htree
  · simp only [hx]
    exact .throw_left

theorem createOp_bare (location location' : Location) (kind : OpKind)
    (hempty : s.border.attributes .empty .empty) :
    Agree (fun c c' => ∃ q, p.Le q ∧ q.Inner s.border c.2 c'.2 ∧ Abreast s q c.1 c'.1)
      (ctx.createOp (.bare location kind)) (ctx'.createOp (.bare location' kind)) := by
  have hbare : p.SameBlueprint s.border (.bare location kind) (.bare location' kind) :=
    ⟨rfl, hempty, .nil, .nil, .nil⟩
  obtain ⟨q, hle, ho, -, h'⟩ := h.addOp hbare
  exact .pure ⟨q, hle, ho, h'⟩

end Abreast

end Offload
