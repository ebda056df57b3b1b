import Offload.Proofs.Device.Operations
import Offload.Proofs.Device.Typing

/-!
# What operations become

Lowering goes through the operations of a function in their order, gives the next number to each
value that it makes, and keeps a list of the operands that stand for the values of the program.
Here it is said without such a state what comes of it. There is one image of every value, and each
operation becomes what its kind says, on the images of its operands (`Becomes`): nothing if it is
a constant, the image of which is a literal; two instructions if it reads a register of the device
as a number of 64 bits; otherwise one. What stands for a value is never replaced, because an
operation stands once in its block and its results are no others'; so what was looked up on the way
is the image at the end, and what an operation becomes is said for every map that agrees with what
stands for the values (`Translated`).
-/

namespace Offload

theorem OpKind.mem_binary : ∀ kind ∈ arithmetic ++ comparisons, kind ∈ binary := by decide

/-- The value of an operation that has one result. -/
theorem Context.Fits.results_singleton {ctx : Context} {shape : Shape} {o : OpRef} {v : ValueRef}
    (h : ctx.Fits shape o) (hshape : shape.results = some 1) (hv : ctx.result o 0 = .ok v) :
    ctx.results o = [v] := by
  obtain ⟨v', heq⟩ := List.length_eq_one_iff.1 (h.results 1 hshape)
  have hv := result_eq_ok.1 hv
  rw [heq] at hv ⊢
  rw [Option.some.inj hv]

namespace Device

open Context

variable {ctx : Context} {σ : ValueRef → Operand} {o : OpRef} {v : ValueRef} {a : Action}

/-! ## Images -/

/-- Only its image stands for a value. -/
def Image (σ : ValueRef → Operand) : Standing := fun v p => σ v = p

/-- What an operation becomes. -/
inductive Becomes (ctx : Context) (σ : ValueRef → Operand) (o : OpRef) : List Instruction → Prop
  | const {type : DataType} {v : ValueRef} {x : Attribute} (hkind : ctx.kindOf o = .const)
    (hresults : ctx.results o = [v]) (htype : dataType? ctx v = some type)
    (hconstant : ctx.constant o = .ok x) (himage : literal? x type = some (σ v)) :
    Becomes ctx σ o []
  | perform {a : Action} (ha : Performs ctx (Image σ) o a) :
    Becomes ctx σ o [{ result := none, action := a }]
  | define {a : Action} {v : ValueRef} {name : String} (ha : Computes ctx (Image σ) o v a)
    (hresults : ctx.results o = [v]) (himage : σ v = .value name) :
    Becomes ctx σ o [{ result := some name, action := a }]
  /-- What the register holds gets a name of its own, which is the image of nothing. -/
  | widen {a : Action} {v : ValueRef} {narrow name : String} (ha : Queries ctx o a)
    (hresults : ctx.results o = [v]) (htype : dataType? ctx v = some .i64)
    (himage : σ v = .value name) :
    Becomes ctx σ o [{ result := some narrow, action := a },
      { result := some name, action := .convert .zext .i32 (.value narrow) .i64 }]

/-! ## Results -/

theorem Queries.results (h : Queries ctx o a) (ho : ctx.Shaped o)
    (hv : ctx.result o 0 = .ok v) : ctx.results o = [v] := by
  obtain ⟨hkind, -⟩ := h
  have hgrid : ctx.kindOf o ∈ gridRegisters.map Prod.fst := List.mem_map_of_mem hkind
  exact (ho.fits _ (OpKind.shape?_of_mem_grid _ hgrid)).results_singleton rfl hv

theorem Computes.results {R : Standing} (h : Computes ctx R o v a) (ho : ctx.Shaped o)
    (hv : ctx.result o 0 = .ok v) : ctx.results o = [v] := by
  have hbinary (hkind : ctx.kindOf o ∈ OpKind.arithmetic ++ OpKind.comparisons) :=
    ho.fits _ (OpKind.shape?_of_mem_binary _ (OpKind.mem_binary _ hkind))
  cases h with
  | arithmetic hkind => exact (hbinary (List.mem_append_left _ hkind)).results_singleton rfl hv
  | compareInt hkind | compareFloat hkind =>
    exact (hbinary (List.mem_append_right _ hkind)).results_singleton rfl hv
  | power hkind | load hkind | alloca hkind | offset hkind =>
    exact (ho.fits _ (by rw [hkind]; rfl)).results_singleton rfl hv
  | call _ hresults => exact hresults
  | query hquery => exact hquery.results ho hv

/-! ## Numbers -/

/-- An operand is not a value, or one with a number below a bound. -/
def Operand.Below (n : Nat) (p : Operand) : Prop :=
  ∀ name, p = .value name → ∃ k < n, toString k = name

theorem Operand.Below.mono {n m : Nat} {p : Operand} (h : p.Below n) (hle : n ≤ m) : p.Below m :=
  fun name hname => by
    obtain ⟨k, hk, hname⟩ := h name hname
    exact ⟨k, Nat.lt_of_lt_of_le hk hle, hname⟩

theorem Operand.below_value (n : Nat) : (Operand.value (toString n)).Below (n + 1) :=
  fun _ hname => ⟨n, Nat.lt_succ_self n, Operand.value.inj hname⟩

/-- Instructions give the numbers from one on to their values, up to another one, and compute on
    values with smaller numbers. -/
inductive Counts : Nat → List Instruction → Nat → Prop
  | nil {n : Nat} : Counts n [] n
  | silent {n m : Nat} {i : Instruction} {is : List Instruction}
    (below : ∀ p ∈ i.action.operands, p.Below n) (result : i.result = none)
    (rest : Counts n is m) : Counts n (i :: is) m
  | named {n m : Nat} {i : Instruction} {is : List Instruction}
    (below : ∀ p ∈ i.action.operands, p.Below n) (result : i.result = some (toString n))
    (rest : Counts (n + 1) is m) : Counts n (i :: is) m

namespace Counts

variable {n m k : Nat} {is js : List Instruction}

theorem append (h : Counts n is m) (h' : Counts m js k) : Counts n (is ++ js) k := by
  induction h with
  | nil => exact h'
  | silent below result _ ih => exact .silent below result (ih h')
  | named below result _ ih => exact .named below result (ih h')

theorem le (h : Counts n is m) : n ≤ m := by
  induction h with
  | nil => exact Nat.le_refl _
  | silent _ _ _ ih => exact ih
  | named _ _ _ ih => exact Nat.le_of_succ_le ih

/-- The names are the numbers in their order. -/
theorem results (h : Counts n is m) :
    is.filterMap (·.result) = (List.range' n (m - n)).map toString := by
  induction h with
  | nil => simp
  | silent _ result _ ih => rw [List.filterMap_cons_none result, ih]
  | @named n m _ _ _ result rest ih =>
    have hlt : m - n = m - (n + 1) + 1 := by
      have := rest.le
      omega
    rw [List.filterMap_cons_some result, ih, hlt, List.range'_succ, List.map_cons]

/-- An instruction in the middle computes on values with smaller numbers. -/
theorem of_append {i : Instruction} (h : Counts n (is ++ i :: js) m) :
    ∃ k, Counts n is k ∧ ∀ p ∈ i.action.operands, p.Below k := by
  induction is generalizing n with
  | nil =>
    cases h with
    | silent below => exact ⟨n, .nil, below⟩
    | named below => exact ⟨n, .nil, below⟩
  | cons j is ih =>
    cases h with
    | silent below result rest =>
      obtain ⟨k, hcounts, hbelow⟩ := ih rest
      exact ⟨k, .silent below result hcounts, hbelow⟩
    | named below result rest =>
      obtain ⟨k, hcounts, hbelow⟩ := ih rest
      exact ⟨k, .named below result hcounts, hbelow⟩

end Counts

/-! ## Operations -/

/-- What stands for values are constants, and values with small numbers. -/
def Building.Bounded (b : Building) : Prop := ∀ e ∈ b.operands, e.2.Below b.next

/-- An operation is lowered: operands are added for its results, and the instructions that it
    becomes if these and those that were there are the images of their values. -/
structure Translated (ctx : Context) (o : OpRef) (b b' : Building)
    (new : List (ValueRef × Operand)) (code : List Instruction) : Prop where
  operands : b'.operands = new ++ b.operands
  instructions : b'.instructions = b.instructions ++ code
  counts : Counts b.next code b'.next
  below : ∀ e ∈ new, e.2.Below b'.next
  results : ∀ e ∈ new, e.1 ∈ ctx.results o
  named : ctx.kindOf o ≠ .const → ∀ e ∈ new, ∃ name, e.2 = .value name
  nodup : (new.map Prod.fst).Nodup
  becomes : ∀ σ : ValueRef → Operand, (∀ e ∈ b'.operands, σ e.1 = e.2) → Becomes ctx σ o code

variable {b b' : Building}

theorem Building.Bounded.below (h : b.Bounded) {ps : List Operand}
    (hps : ∀ p ∈ ps, ∃ v, b.Finds v p) : ∀ p ∈ ps, p.Below b.next := fun p hp => by
  obtain ⟨v, hv⟩ := hps p hp
  exact h _ (Position.mem_of_lookup hv)

/-- What was looked up is the image, if this is so of all that was there. -/
theorem image_of_finds (hσ : ∀ e ∈ b.operands, σ e.1 = e.2) (v : ValueRef) (p : Operand)
    (hp : b.Finds v p) : Image σ v p :=
  hσ _ (Position.mem_of_lookup hp)

/-- A value that gets a number. -/
theorem Translated.of_value {name : Nat} {code : List Instruction}
    (hoperands : b'.operands = (v, .value (toString name)) :: b.operands)
    (hinstructions : b'.instructions = b.instructions ++ code)
    (hcounts : Counts b.next code b'.next) (hname : name < b'.next) (hv : ctx.results o = [v])
    (hbecomes : ∀ σ : ValueRef → Operand, (∀ e ∈ b.operands, σ e.1 = e.2) →
      σ v = .value (toString name) → Becomes ctx σ o code) :
    Translated ctx o b b' [(v, .value (toString name))] code where
  operands := hoperands
  instructions := hinstructions
  counts := hcounts
  below := List.forall_mem_singleton.2 ((Operand.below_value name).mono hname)
  results := List.forall_mem_singleton.2 (hv ▸ List.mem_singleton_self v)
  named _ := List.forall_mem_singleton.2 ⟨_, rfl⟩
  nodup := List.nodup_singleton v
  becomes σ hσ := by
    rw [hoperands] at hσ
    obtain ⟨himage, hσ⟩ := List.forall_mem_cons.1 hσ
    exact hbecomes σ hσ himage

/-- Lowering an operation of its shape leads on. -/
theorem LowersOp.translated (h : LowersOp ctx o b b') (ho : ctx.Shaped o) (hb : b.Bounded) :
    ∃ new code, Translated ctx o b b' new code := by
  cases h with
  | @assign type v x p hkind hv htype hconstant hp =>
    have hresults := (ho.fits _ (by rw [hkind]; rfl)).results_singleton rfl hv
    -- an operand, and no instruction
    refine ⟨[(v, p)], [], rfl, (List.append_nil _).symm, .nil, ?_, ?_, fun hne => absurd hkind hne,
      List.nodup_singleton v, fun σ hσ => ?_⟩
    · refine List.forall_mem_singleton.2 fun name hname => ?_
      exact absurd hname (Operand.ne_value_of_isConstant (isConstant_of_literal? hp))
    · exact List.forall_mem_singleton.2 (hresults ▸ List.mem_singleton_self v)
    · obtain ⟨himage, -⟩ := List.forall_mem_cons.1 hσ
      exact .const hkind hresults htype hconstant (hp.trans (congrArg some himage.symm))
  | perform ha =>
    exact ⟨[], _, rfl, rfl, .silent (hb.below ha.stands) rfl .nil, List.forall_mem_nil _,
      List.forall_mem_nil _, fun _ => List.forall_mem_nil _, .nil,
      fun σ hσ => .perform (ha.mono (image_of_finds hσ))⟩
  | define hv ha =>
    exact ⟨_, _, .of_value rfl rfl (.named (hb.below ha.stands) rfl .nil) (Nat.lt_succ_self _)
      (ha.results ho hv) fun σ hσ himage =>
        .define (ha.mono (image_of_finds hσ)) (ha.results ho hv) himage⟩
  | @widen v a i hv htype ha =>
    have hcall : ∀ p ∈ a.operands, p.Below b.next := ha.operands ▸ List.forall_mem_nil _
    have hnarrow : ∀ p ∈ [Operand.value (toString b.next)], p.Below (b.next + 1) :=
      List.forall_mem_singleton.2 (Operand.below_value b.next)
    have hcounts : Counts b.next [{ result := some (toString b.next), action := a },
        { result := some (toString (b.next + 1)),
          action := .convert .zext .i32 (.value (toString b.next)) .i64 }] (b.next + 1 + 1) :=
      .named hcall rfl (.named hnarrow rfl .nil)
    exact ⟨_, _, .of_value rfl (List.append_assoc _ _ _) hcounts (Nat.lt_succ_self _)
      (ha.results ho hv) fun σ _ himage => .widen ha (ha.results ho hv) htype himage⟩

end Device

end Offload
