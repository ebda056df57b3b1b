import Offload.Proofs.Source.Types

/-!
# Three ways to number values

The same program is named three times over: building binds names to values, quoting
gives numbers to values, and the normal form gives numbers to names. They go the same
way through the program, and agree at every step (`Aligned`): where a name stands for a
value, both have the same number. A value has one number, and no two values share one.

They part in one place only. Quoting names the results of an operation before its
regions, while building allocates them after. So the regions are numbered with values
around that do not exist yet, and no number given out in them may touch those
(`Untouched`).
-/

namespace Offload

open Context

/-! ## Runs of quoting -/

namespace Quote

/-- A step of quoting gives a result. -/
def Yields {α : Type} (x : QuoteM α) (ν : Naming) (a : α) (ν' : Naming) : Prop :=
  x.run ν = .ok (a, ν')

namespace Yields

variable {α β : Type} {ν ν₁ ν' : Naming}

theorem pure (a : α) : Yields (pure a) ν a ν := rfl

theorem bind {x : QuoteM α} {f : α → QuoteM β} {a : α} {b : β} (hx : Yields x ν a ν₁)
    (hf : Yields (f a) ν₁ b ν') : Yields (x >>= f) ν b ν' := by
  rw [Yields, StateT.run_bind, hx]
  exact hf

theorem lift {x : Except Fault α} {a : α} (hx : x = .ok a) :
    Yields (x : QuoteM α) ν a ν := by
  rw [hx]
  rfl

theorem map {x : QuoteM α} {a : α} (f : α → β) (hx : Yields x ν a ν') :
    Yields (f <$> x) ν (f a) ν' := by
  rw [Yields, StateT.run_map, hx]
  rfl

theorem mapM_nil (f : α → QuoteM β) : Yields (([] : List α).mapM f) ν [] ν := by
  rw [List.mapM_nil]
  rfl

theorem mapM_cons {f : α → QuoteM β} {x : α} {xs : List α} {y : β} {ys : List β}
    (hx : Yields (f x) ν y ν₁) (hxs : Yields (xs.mapM f) ν₁ ys ν') :
    Yields ((x :: xs).mapM f) ν (y :: ys) ν' := by
  rw [List.mapM_cons]
  exact hx.bind (hxs.bind (.pure _))

theorem mapM_lift {f : α → Except Fault β} {xs : List α} {ys : List β}
    (h : List.Forall₂ (fun x y => f x = .ok y) xs ys) :
    Yields (xs.mapM fun x => (f x : QuoteM β)) ν ys ν := by
  induction h with
  | nil => exact mapM_nil _
  | cons hx _ ih => exact mapM_cons (.lift hx) ih

end Yields

end Quote

open Quote

/-! ## Numbers for values -/

namespace Naming

/-- Give a value the next number. -/
def next (ν : Naming) (v : ValueRef) : Naming :=
  { ν with names := (v, ν.nextValue) :: ν.names, nextValue := ν.nextValue + 1 }

/-- Give values the next numbers, in their order. -/
def push (ν : Naming) : List ValueRef → Naming
  | [] => ν
  | v :: vs => (ν.next v).push vs

/-- A block has got its number. -/
def label (ν : Naming) : Naming := { ν with nextBlock := ν.nextBlock + 1 }

variable {ν : Naming}

theorem push_eq (vs : List ValueRef) : (ν.push vs).nextValue = ν.nextValue + vs.length ∧
    (ν.push vs).nextBlock = ν.nextBlock := by
  induction vs generalizing ν with
  | nil => exact ⟨rfl, rfl⟩
  | cons v vs ih =>
    obtain ⟨hvalue, hblock⟩ := ih (ν := ν.next v)
    rw [push, hvalue, List.length_cons]
    exact ⟨by simp only [next]; omega, hblock⟩

theorem lookup_next (v w : ValueRef) : (ν.next v).names.lookup w =
    if w = v then some ν.nextValue else ν.names.lookup w := by
  rw [next, List.lookup_cons]
  split
  · rename_i heq
    rw [if_pos (eq_of_beq heq)]
  · rename_i hne
    rw [if_neg fun heq => by simp [heq] at hne]

/-- The other values keep their numbers. -/
theorem lookup_push {vs : List ValueRef} {w : ValueRef} (hw : w ∉ vs) :
    (ν.push vs).names.lookup w = ν.names.lookup w := by
  induction vs generalizing ν with
  | nil => rfl
  | cons v vs ih =>
    rw [List.mem_cons, not_or] at hw
    rw [push, ih hw.2, lookup_next, if_neg hw.1]

/-- Values get the next numbers. -/
theorem lookup_push_self {vs : List ValueRef} (hvs : vs.Nodup) :
    List.Forall₂ (fun v n => (ν.push vs).names.lookup v = some n) vs
      (List.range' ν.nextValue vs.length) := by
  induction vs generalizing ν with
  | nil => exact .nil
  | cons v vs ih =>
    obtain ⟨hv, hvs⟩ := List.nodup_cons.1 hvs
    rw [List.length_cons, List.range'_succ]
    refine .cons ?_ (ih hvs)
    rw [push, lookup_push hv, lookup_next, if_pos rfl]

/-- No number is given out twice, and none ahead of its turn. -/
structure OneToOne (ν : Naming) : Prop where
  below : ∀ v n, ν.names.lookup v = some n → n < ν.nextValue
  injective : ∀ v w n, ν.names.lookup v = some n → ν.names.lookup w = some n → v = w

theorem OneToOne.next (h : ν.OneToOne) (v : ValueRef) : (ν.next v).OneToOne := by
  have hother {w : ValueRef} {n : Nat} (hw : (ν.next v).names.lookup w = some n) :
      w = v ∧ n = ν.nextValue ∨ ν.names.lookup w = some n := by
    rw [lookup_next] at hw
    split at hw
    · exact .inl ⟨‹_›, (Option.some.inj hw).symm⟩
    · exact .inr hw
  refine ⟨fun w n hw => ?_, fun w x n hw hx => ?_⟩
  · rcases hother hw with ⟨-, rfl⟩ | hw
    · exact Nat.lt_succ_self _
    · exact (h.below w n hw).trans (Nat.lt_succ_self _)
  · rcases hother hw with ⟨hwv, hn⟩ | hw' <;> rcases hother hx with ⟨hxv, hn'⟩ | hx'
    · exact hwv.trans hxv.symm
    · exact absurd hn (h.below x n hx').ne
    · exact absurd hn' (h.below w n hw').ne
    · exact h.injective w x n hw' hx'

theorem OneToOne.push (h : ν.OneToOne) (vs : List ValueRef) : (ν.push vs).OneToOne := by
  induction vs generalizing ν with
  | nil => exact h
  | cons v vs ih => exact ih (h.next v)

/-- The numbers that values have for good are those given out so far. -/
def Agrees (ν : Naming) (number : ValueRef → Option Nat) : Prop :=
  ∀ v n, ν.names.lookup v = some n → number v = some n

end Naming

namespace Quote

variable {ν : Naming}

theorem yields_define (v : ValueRef) : Yields (define v) ν (toString ν.nextValue) (ν.next v) := rfl

theorem yields_mapM_define (vs : List ValueRef) : Yields (vs.mapM define) ν
    ((List.range' ν.nextValue vs.length).map toString) (ν.push vs) := by
  induction vs generalizing ν with
  | nil => exact .mapM_nil _
  | cons v vs ih =>
    rw [List.length_cons, List.range'_succ, List.map_cons]
    exact .mapM_cons (yields_define v) ih

theorem yields_nameOf {v : ValueRef} {n : Nat} (h : ν.names.lookup v = some n) :
    Yields (nameOf v) ν (toString n) ν := by
  rw [Yields]
  change Except.ok (_, ν) = _
  rw [h]

theorem yields_mapM_nameOf {vs : List ValueRef} {ns : List Nat}
    (h : List.Forall₂ (fun v n => ν.names.lookup v = some n) vs ns) :
    Yields (vs.mapM nameOf) ν (ns.map toString) ν := by
  induction h with
  | nil => exact .mapM_nil _
  | cons hv _ ih => exact .mapM_cons (yields_nameOf hv) ih

end Quote

/-! ## Names, values and numbers -/

/-- The names for values and for numbers say the same. -/
structure Aligned (s : Builder) (st : Numbering) (ν : Naming) : Prop where
  names : List.Forall₂ (fun p q => p.1 = q.1 ∧ p.2.index < s.context.values.size ∧
    ν.names.lookup p.2 = some q.2) s.names st.names
  nextValue : ν.nextValue = st.nextValue
  nextBlock : ν.nextBlock = st.nextBlock
  oneToOne : ν.OneToOne

/-- The values from one number of handles to another have no numbers yet. -/
def Unnamed (lo hi : Nat) (ν : Naming) : Prop :=
  ∀ v : ValueRef, lo ≤ v.index → v.index < hi → ν.names.lookup v = none

/-- Numbers are given to the values from one number of handles to another, and to no
    other. -/
def Untouched (lo hi : Nat) (ν ν' : Naming) : Prop :=
  ∀ v : ValueRef, v.index < lo ∨ hi ≤ v.index → ν'.names.lookup v = ν.names.lookup v

section

variable {s : Builder} {st : Numbering} {ν ν₁ ν' : Naming} {ctx : Context} {lo mid hi : Nat}

theorem Untouched.refl : Untouched lo hi ν ν := fun _ _ => rfl

theorem Untouched.trans (h₁ : Untouched lo mid ν ν₁) (h₂ : Untouched mid hi ν₁ ν')
    (hlo : lo ≤ mid) (hhi : mid ≤ hi) : Untouched lo hi ν ν' := fun v hv => by
  rw [h₂ v (hv.imp (·.trans_le hlo) id), h₁ v (hv.imp id hhi.trans)]

/-- What comes later has no numbers yet. -/
theorem Unnamed.after (h : Unnamed lo hi ν) (hν : Untouched lo mid ν ν₁) (hlo : lo ≤ mid) :
    Unnamed mid hi ν₁ := fun v hv hv' => by
  rw [hν v (.inr hv), h v (hlo.trans hv) hv']

/-- Numbers are kept. -/
theorem Naming.Agrees.before {number : ValueRef → Option Nat} (h : ν'.Agrees number)
    (hnew : Unnamed lo hi ν) (hν : Untouched lo hi ν ν') : ν.Agrees number := by
  intro v n hv
  refine h v n ?_
  by_cases hin : lo ≤ v.index ∧ v.index < hi
  · rw [hnew v hin.1 hin.2] at hv
    cases hv
  · rw [hν v (by omega), hv]

namespace Aligned

/-- A name stands for a number iff it stands for a value. -/
theorem lookup (h : Aligned s st ν) {name : String} {v : ValueRef}
    (hv : s.names.lookup name = some v) :
    ∃ n, st.resolve name = some n ∧ ν.names.lookup v = some n := by
  rw [Numbering.resolve]
  have hnames := h.names
  revert hnames hv
  generalize s.names = l, st.names = l'
  intro hv hnames
  induction hnames with
  | nil => cases hv
  | @cons p q l l' hpq _ ih =>
    obtain ⟨heq, -, hnumber⟩ := hpq
    obtain ⟨x, w⟩ := p
    obtain ⟨y, n⟩ := q
    obtain rfl : x = y := heq
    rw [List.lookup_cons] at hv ⊢
    split at hv
    · cases hv
      exact ⟨n, rfl, hnumber⟩
    · exact ih hv

theorem resolve (h : Aligned s st ν) {names : List String} {vs : List ValueRef}
    (hvs : List.Forall₂ (fun name v => s.names.lookup name = some v) names vs) :
    ∃ ns, names.mapM st.resolve = some ns ∧
      List.Forall₂ (fun v n => ν.names.lookup v = some n) vs ns := by
  induction hvs with
  | nil => exact ⟨[], rfl, .nil⟩
  | cons hv _ ih =>
    obtain ⟨n, hn, hlookup⟩ := h.lookup hv
    obtain ⟨ns, hns, hlookups⟩ := ih
    refine ⟨n :: ns, ?_, .cons hlookup hlookups⟩
    rw [List.mapM_cons, hn, hns]
    rfl

/-- Nothing changes while the context grows. -/
theorem grow (h : Aligned s st ν) (hle : s.context.values.size ≤ ctx.values.size) :
    Aligned { s with context := ctx } st ν where
  names := h.names.imp fun _ _ hpq => ⟨hpq.1, hpq.2.1.trans_le hle, hpq.2.2⟩
  nextValue := h.nextValue
  nextBlock := h.nextBlock
  oneToOne := h.oneToOne

theorem label (h : Aligned s st ν) : Aligned s st.nextLabel ν.label :=
  ⟨h.names, h.nextValue, congrArg (· + 1) h.nextBlock, ⟨h.oneToOne.below, h.oneToOne.injective⟩⟩

/-- New values get numbers. -/
theorem push (h : Aligned s st ν) {vs : List ValueRef}
    (hnew : ∀ v ∈ vs, s.context.values.size ≤ v.index) :
    Aligned s (st.skip vs.length) (ν.push vs) where
  names := h.names.imp fun p _ hpq => by
    refine ⟨hpq.1, hpq.2.1, ?_⟩
    rw [Naming.lookup_push fun hp => absurd (hnew _ hp) (Nat.not_le_of_lt hpq.2.1)]
    exact hpq.2.2
  nextValue := by rw [(Naming.push_eq vs).1, h.nextValue]; rfl
  nextBlock := (Naming.push_eq vs).2.trans h.nextBlock
  oneToOne := h.oneToOne.push vs

/-- Names come to stand for values that have numbers. -/
theorem bind (h : Aligned s st ν) {names : List String} {vs : List ValueRef} {ns : List Nat}
    (hvs : List.Forall₂ (fun v n => ν.names.lookup v = some n) vs ns)
    (hlt : ∀ v ∈ vs, v.index < s.context.values.size) :
    Aligned { s with names := (names.zip vs).reverse ++ s.names } (st.bind names ns) ν where
  names := by
    refine List.rel_append (List.rel_reverse ?_) h.names
    clear h
    induction hvs generalizing names with
    | nil => simp
    | cons hv _ ih =>
      cases names with
      | nil => exact .nil
      | cons name names =>
        obtain ⟨hlt, hlts⟩ := List.forall_mem_cons.1 hlt
        exact .cons ⟨rfl, hlt, hv⟩ (ih hlts)
  nextValue := h.nextValue
  nextBlock := h.nextBlock
  oneToOne := h.oneToOne

end Aligned

end

end Offload
