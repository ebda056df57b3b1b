import Mathlib.Data.List.Forall2

/-!
# Outcomes of steps that may fail

A computation in `Except ε` succeeds iff all of its steps do. The statements
here take a success apart: into the successes of two steps in a row, and into
the successes of a step at every element of a list.
-/

namespace Offload.Outcome

variable {ε α β : Type}

@[simp]
theorem bind_eq_ok {x : Except ε α} {f : α → Except ε β} {b : β} :
    (x >>= f) = .ok b ↔ ∃ a, x = .ok a ∧ f a = .ok b := by
  cases x <;> simp [bind, Except.bind]

@[simp]
theorem map_eq_ok {x : Except ε α} {f : α → β} {b : β} :
    (f <$> x) = .ok b ↔ ∃ a, x = .ok a ∧ f a = b := by
  cases x <;> simp [Functor.map, Except.map]

@[simp]
theorem pure_eq_ok {a b : α} : (pure a : Except ε α) = .ok b ↔ a = b := by
  simp [pure, Except.pure]

@[simp]
theorem throw_ne_ok {e : ε} {b : α} : (throw e : Except ε α) ≠ .ok b := by
  simp [throw, throwThe, MonadExceptOf.throw]

@[simp]
theorem ok_bind {a : α} {f : α → Except ε β} : (Except.ok a >>= f) = f a := rfl

/-- A failure is one of either of two steps in a row. -/
theorem bind_eq_error {x : Except ε α} {f : α → Except ε β} {e : ε} :
    (x >>= f) = .error e ↔ x = .error e ∨ ∃ a, x = .ok a ∧ f a = .error e := by
  cases x <;> simp [bind, Except.bind]

theorem exists_of_isOk {x : Except ε α} (h : x.isOk) : ∃ a, x = .ok a := by
  cases x with
  | ok a => exact ⟨a, rfl⟩
  | error e => cases h

/-- What is said of the value of a success can be decided. -/
instance decidableForallOk (x : Except ε α) (P : α → Prop) [∀ a, Decidable (P a)] :
    Decidable (∀ a, x = .ok a → P a) :=
  match x with
  | .ok a => decidable_of_iff (P a) ⟨fun h _ heq => Except.ok.inj heq ▸ h, fun h => h a rfl⟩
  | .error _ => .isTrue fun _ heq => by cases heq

/-- What follows a success only matters for its value. -/
theorem bind_congr {x : Except ε α} {f g : α → Except ε β} (h : ∀ a, x = .ok a → f a = g a) :
    (x >>= f) = (x >>= g) := by
  cases x with
  | error e => rfl
  | ok a => exact h a rfl

/-- A success in both cases. -/
theorem ite_ok {p : Prop} [Decidable p] {x y : Except ε α} (hx : p → ∃ a, x = .ok a)
    (hy : ¬p → ∃ a, y = .ok a) : ∃ a, (if p then x else y) = .ok a := by
  split
  · exact hx ‹_›
  · exact hy ‹_›

/-! ## Lists -/

theorem mapM_eq_ok {f : α → Except ε β} {xs : List α} {ys : List β} :
    xs.mapM f = .ok ys ↔ List.Forall₂ (fun x y => f x = .ok y) xs ys := by
  induction xs generalizing ys with
  | nil => cases ys <;> simp
  | cons x xs ih =>
    simp only [List.mapM_cons, bind_eq_ok, pure_eq_ok, ih]
    constructor
    · rintro ⟨y, hy, ys, hys, rfl⟩
      exact .cons hy hys
    · rintro (_ | ⟨hy, hys⟩)
      exact ⟨_, hy, _, hys, rfl⟩

/-- Steps that give what others give, wherever those give anything. -/
theorem mapM_imp {f g : α → Except ε β} {xs : List α} {ys : List β}
    (h : ∀ x ∈ xs, ∀ y, f x = .ok y → g x = .ok y) (hrun : xs.mapM f = .ok ys) :
    xs.mapM g = .ok ys := by
  rw [mapM_eq_ok] at hrun ⊢
  induction hrun with
  | nil => exact .nil
  | cons hx _ ih =>
    obtain ⟨hhead, hrest⟩ := List.forall_mem_cons.1 h
    exact .cons (hhead _ hx) (ih hrest)

theorem mapM_ok {f : α → Except ε β} {xs : List α} (h : ∀ x ∈ xs, ∃ y, f x = .ok y) :
    ∃ ys, xs.mapM f = .ok ys := by
  induction xs with
  | nil => exact ⟨[], rfl⟩
  | cons x xs ih =>
    obtain ⟨⟨y, hy⟩, hrest⟩ := List.forall_mem_cons.1 h
    obtain ⟨ys, hys⟩ := ih hrest
    exact ⟨y :: ys, mapM_eq_ok.2 (.cons hy (mapM_eq_ok.1 hys))⟩

/-- Lists are equal if the same comes of them, where this is so of their elements. -/
theorem eq_of_mapM {f : α → Except ε β} {xs xs' : List α} {ys : List β}
    (h : ∀ x ∈ xs, ∀ x' ∈ xs', ∀ y, f x = .ok y → f x' = .ok y → x = x')
    (hxs : xs.mapM f = .ok ys) (hxs' : xs'.mapM f = .ok ys) : xs = xs' := by
  rw [mapM_eq_ok] at hxs hxs'
  induction hxs generalizing xs' with
  | nil =>
    cases hxs'
    rfl
  | cons hx _ ih =>
    obtain ⟨x', xs', hx', hrest, rfl⟩ := List.forall₂_cons_right_iff.1 hxs'
    rw [h _ List.mem_cons_self x' List.mem_cons_self _ hx hx', ih
      (fun x hx x' hx' => h x (List.mem_cons_of_mem _ hx) x' (List.mem_cons_of_mem _ hx')) hrest]

/-- A step fails at all elements only if it fails at one. -/
theorem exists_of_mapM_eq_error {f : α → Except ε β} {xs : List α} {e : ε}
    (h : xs.mapM f = .error e) : ∃ x ∈ xs, f x = .error e := by
  induction xs with
  | nil => cases h
  | cons x xs ih =>
    rw [List.mapM_cons] at h
    obtain h | ⟨y, -, h⟩ := bind_eq_error.1 h
    · exact ⟨x, List.mem_cons_self, h⟩
    · obtain h | ⟨ys, -, h⟩ := bind_eq_error.1 h
      · obtain ⟨x', hx', h⟩ := ih h
        exact ⟨x', List.mem_cons_of_mem _ hx', h⟩
      · cases h

/-- Where a step that succeeds gives what a function does, so do all steps. -/
theorem eq_map_of_mapM {f : α → Except ε β} {g : α → β} {xs : List α} {ys : List β}
    (hf : ∀ x y, f x = .ok y → y = g x) (h : xs.mapM f = .ok ys) : ys = xs.map g := by
  have hsteps := mapM_eq_ok.1 h
  clear h
  induction hsteps with
  | nil => rfl
  | cons hstep _ ih => rw [List.map_cons, ← hf _ _ hstep, ← ih]

theorem eq_map_of_option_mapM {f : α → Except ε β} {g : α → β} {x : Option α} {y : Option β}
    (hf : ∀ a b, f a = .ok b → b = g a) (h : x.mapM f = .ok y) : y = x.map g := by
  cases x with
  | none =>
    cases h
    rfl
  | some a =>
    obtain ⟨b, hb, rfl⟩ := map_eq_ok.1 h
    rw [hf a b hb]
    rfl

/-- A success of a step at every element, with the lists joined. -/
theorem flatMapM_eq_ok {f : α → Except ε (List β)} {xs : List α} {ys : List β} :
    xs.flatMapM f = .ok ys ↔
      ∃ yss, List.Forall₂ (fun x ys => f x = .ok ys) xs yss ∧ ys = yss.flatten := by
  induction xs generalizing ys with
  | nil => simp [eq_comm, pure, Except.pure]
  | cons x xs ih =>
    simp only [List.flatMapM_cons, bind_eq_ok, pure_eq_ok, ih, List.forall₂_cons_left_iff]
    constructor
    · rintro ⟨y, hy, _, ⟨yss, hyss, rfl⟩, rfl⟩
      exact ⟨y :: yss, ⟨y, yss, hy, hyss, rfl⟩, rfl⟩
    · rintro ⟨_, ⟨y, yss, hy, hyss, rfl⟩, rfl⟩
      exact ⟨y, hy, _, ⟨yss, hyss, rfl⟩, rfl⟩

theorem flatMapM_ok {f : α → Except ε (List β)} {xs : List α} (h : ∀ x ∈ xs, ∃ ys, f x = .ok ys) :
    ∃ ys, xs.flatMapM f = .ok ys := by
  induction xs with
  | nil => exact ⟨[], rfl⟩
  | cons x xs ih =>
    obtain ⟨y, hy⟩ := h x List.mem_cons_self
    obtain ⟨ys, hys⟩ := ih fun x hx => h x (List.mem_cons_of_mem _ hx)
    exact ⟨y ++ ys, by rw [List.flatMapM_cons, hy, hys]; rfl⟩

/-- If a step computes a function where it succeeds, so it does on lists. -/
theorem eq_flatMap_of_flatMapM {f : α → Except ε (List β)} {g : α → List β} {xs : List α}
    {ys : List β} (h : ∀ x ys, f x = .ok ys → ys = g x) (hrun : xs.flatMapM f = .ok ys) :
    ys = xs.flatMap g := by
  obtain ⟨yss, hyss, rfl⟩ := flatMapM_eq_ok.1 hrun
  rw [List.flatMap_def]
  congr 1
  clear hrun
  induction hyss with
  | nil => rfl
  | cons hx _ ih => rw [List.map_cons, ← ih, h _ _ hx]

theorem flatMapM_append_eq_ok {f : α → Except ε (List β)} {xs xs' : List α} {ys : List β} :
    (xs ++ xs').flatMapM f = .ok ys ↔
      ∃ zs zs', xs.flatMapM f = .ok zs ∧ xs'.flatMapM f = .ok zs' ∧ ys = zs ++ zs' := by
  induction xs generalizing ys with
  | nil => simp
  | cons x xs ih =>
    simp only [List.cons_append, List.flatMapM_cons, bind_eq_ok, pure_eq_ok, ih]
    constructor
    · rintro ⟨y, hy, _, ⟨zs, zs', hzs, hzs', rfl⟩, rfl⟩
      exact ⟨_, zs', ⟨y, hy, zs, hzs, rfl⟩, hzs', by simp⟩
    · rintro ⟨_, zs', ⟨y, hy, zs, hzs, rfl⟩, hzs', rfl⟩
      exact ⟨y, hy, _, ⟨zs, zs', hzs, hzs', rfl⟩, by simp⟩

/-- Of finitely many bounds, each of which may be raised, one is enough. -/
theorem exists_bound_of_forall₂ {r : Nat → α → β → Prop}
    (hmono : ∀ n m x y, n ≤ m → r n x y → r m x y) {xs : List α} {ys : List β}
    (h : List.Forall₂ (fun x y => ∃ n, r n x y) xs ys) : ∃ n, List.Forall₂ (r n) xs ys := by
  induction h with
  | nil => exact ⟨0, .nil⟩
  | cons hx _ ih =>
    obtain ⟨n, hx⟩ := hx
    obtain ⟨m, hxs⟩ := ih
    exact ⟨max n m, .cons (hmono _ _ _ _ (Nat.le_max_left n m) hx)
      (hxs.imp fun x y => hmono _ _ _ _ (Nat.le_max_right n m))⟩

/-- Elements of related lists are related to elements. -/
theorem exists_of_mem_left {r : α → β → Prop} {xs : List α} {ys : List β}
    (h : List.Forall₂ r xs ys) {x : α} (hx : x ∈ xs) : ∃ y ∈ ys, r x y := by
  induction h with
  | nil => cases hx
  | cons h _ ih =>
    cases hx with
    | head => exact ⟨_, List.mem_cons_self, h⟩
    | tail _ hx =>
      obtain ⟨y, hy, hr⟩ := ih hx
      exact ⟨y, List.mem_cons_of_mem _ hy, hr⟩

theorem exists_of_mem_right {r : α → β → Prop} {xs : List α} {ys : List β}
    (h : List.Forall₂ r xs ys) {y : β} (hy : y ∈ ys) : ∃ x ∈ xs, r x y :=
  exists_of_mem_left h.flip hy

/-- What holds between the items of a list in their order holds between what a computation gives
    for them, if the computation keeps it. -/
theorem pairwise_of_mapM {r : α → α → Prop} {s : β → β → Prop} {f : α → Except ε β} {xs : List α}
    {ys : List β} (hf : ∀ x x' y y', r x x' → f x = .ok y → f x' = .ok y' → s y y')
    (hxs : xs.Pairwise r) (h : xs.mapM f = .ok ys) : ys.Pairwise s := by
  have hsteps := mapM_eq_ok.1 h
  clear h
  induction hsteps with
  | nil => exact .nil
  | cons hstep hrest ih =>
    obtain ⟨hx, hxs⟩ := List.pairwise_cons.1 hxs
    refine List.pairwise_cons.2 ⟨fun y' hy' => ?_, ih hxs⟩
    obtain ⟨x', hx', hstep'⟩ := exists_of_mem_right hrest hy'
    exact hf _ _ _ _ (hx x' hx') hstep hstep'

/-- A step that finds nothing anywhere. -/
theorem flatMapM_eq_nil {f : α → Except ε (List β)} {xs : List α} :
    xs.flatMapM f = .ok [] ↔ ∀ x ∈ xs, f x = .ok [] := by
  induction xs with
  | nil => simp
  | cons x xs ih =>
    simp only [List.flatMapM_cons, bind_eq_ok, pure_eq_ok, List.append_eq_nil_iff,
      List.forall_mem_cons, ← ih]
    constructor
    · rintro ⟨_, hx, _, hxs, rfl, rfl⟩
      exact ⟨hx, hxs⟩
    · rintro ⟨hx, hxs⟩
      exact ⟨_, hx, _, hxs, rfl, rfl⟩

/-- A step that finds nothing anywhere, where it may find one thing. -/
theorem filterMapM_eq_nil {f : α → Except ε (Option β)} {xs : List α} :
    xs.filterMapM f = .ok [] ↔ ∀ x ∈ xs, f x = .ok none := by
  induction xs with
  | nil => simp
  | cons x xs ih =>
    simp only [List.filterMapM_cons, bind_eq_ok, List.forall_mem_cons, ← ih]
    constructor
    · rintro ⟨y, hy, h⟩
      cases y with
      | none => exact ⟨hy, h⟩
      | some y => simp at h
    · rintro ⟨hx, hxs⟩
      exact ⟨none, hx, hxs⟩

/-- A test that holds everywhere. -/
theorem allM_eq_true {f : α → Except ε Bool} {xs : List α} :
    xs.allM f = .ok true ↔ ∀ x ∈ xs, f x = .ok true := by
  induction xs with
  | nil => simp
  | cons x xs ih =>
    simp only [List.allM_cons, bind_eq_ok, List.forall_mem_cons, ← ih]
    constructor
    · rintro ⟨y, hy, h⟩
      cases y with
      | false => simp at h
      | true => exact ⟨hy, h⟩
    · rintro ⟨hx, hxs⟩
      exact ⟨true, hx, hxs⟩

theorem allM_ok {f : α → Except ε Bool} {xs : List α} (h : ∀ x ∈ xs, ∃ y, f x = .ok y) :
    ∃ y, xs.allM f = .ok y := by
  induction xs with
  | nil => exact ⟨true, rfl⟩
  | cons x xs ih =>
    obtain ⟨y, hy⟩ := h x List.mem_cons_self
    obtain ⟨z, hz⟩ := ih fun x hx => h x (List.mem_cons_of_mem _ hx)
    rw [List.allM_cons, hy, ok_bind]
    cases y with
    | false => exact ⟨false, rfl⟩
    | true => exact ⟨z, hz⟩

/-- A test that does not hold everywhere fails somewhere. -/
theorem exists_of_allM_eq_false {f : α → Except ε Bool} {xs : List α}
    (h : xs.allM f = .ok false) : ∃ x ∈ xs, f x = .ok false := by
  induction xs with
  | nil => cases h
  | cons x xs ih =>
    rw [List.allM_cons] at h
    obtain ⟨y, hy, h⟩ := bind_eq_ok.1 h
    cases y with
    | false => exact ⟨x, List.mem_cons_self, hy⟩
    | true =>
      obtain ⟨z, hz, hf⟩ := ih h
      exact ⟨z, List.mem_cons_of_mem x hz, hf⟩

/-- A test that gives the answers of another one, wherever that gives any. -/
theorem allM_imp {f g : α → Except ε Bool} {xs : List α} {answer : Bool}
    (h : ∀ x ∈ xs, ∀ y, f x = .ok y → g x = .ok y) (hrun : xs.allM f = .ok answer) :
    xs.allM g = .ok answer := by
  induction xs with
  | nil => exact hrun
  | cons x xs ih =>
    rw [List.allM_cons] at hrun ⊢
    obtain ⟨y, hy, hrun⟩ := bind_eq_ok.1 hrun
    rw [h x List.mem_cons_self y hy, ok_bind]
    cases y with
    | false => exact hrun
    | true => exact ih (fun x hx => h x (List.mem_cons_of_mem _ hx)) hrun

/-- A selection by a test that always answers. -/
theorem filterM_eq_ok {f : α → Except ε Bool} {g : α → Bool} {xs : List α}
    (h : ∀ x ∈ xs, f x = .ok (g x)) : xs.filterM f = .ok (xs.filter g) := by
  have haux (acc : List α) : xs.filterAuxM f acc = .ok ((xs.filter g).reverse ++ acc) := by
    induction xs generalizing acc with
    | nil => rfl
    | cons x xs ih =>
      rw [List.filterAuxM, h x List.mem_cons_self, ok_bind,
        ih fun x hx => h x (List.mem_cons_of_mem _ hx), List.filter_cons]
      cases g x
      · rfl
      · simp
  rw [List.filterM, haux, ok_bind, List.append_nil, List.reverse_reverse]
  rfl

/-- An answer is there if it is seen. -/
theorem eq_ok_of_toOption {outcome : Except ε α} {a : α} (h : outcome.toOption = some a) :
    outcome = .ok a := by
  cases outcome with
  | error => cases h
  | ok => exact congrArg Except.ok (Option.some.inj h)

theorem exists_of_isSome {outcome : Except ε (Option α)} (h : outcome.toOption.join.isSome) :
    ∃ a, outcome = .ok (some a) := by
  obtain ⟨a, ha⟩ := Option.isSome_iff_exists.1 h
  exact ⟨a, eq_ok_of_toOption (Option.join_eq_some_iff.1 ha)⟩

end Offload.Outcome
