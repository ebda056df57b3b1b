import Offload.Proofs.Checked
import Offload.Proofs.Source.Depiction
import Offload.Proofs.Source.Pieces

/-!
# Printed names

Quoting numbers values as it meets them, and refers to a value by the number that it has
got so far, or by `?`. The check of scope knows nothing of this order: it looks from an
operand up to the blocks around it. That the one implies the other is an induction over
the tree. Everything ahead of an operation has a number when the operation is written
(`Checked.writes`): on the way down it is ahead of the operation around, or an argument
of the block, or a result of an operation that the block lists before.

So if the checks of links and of scope find nothing at a detached root, its text binds
each name once and mentions no name before it is bound (`print_resolved`).
-/

namespace Offload

namespace Source

/-! ## Names in pieces -/

/-- The names that pieces bind, in their order. -/
def bound : List Piece → List String
  | [] => []
  | .binding name :: pieces => name :: bound pieces
  | _ :: pieces => bound pieces

/-- No name is bound twice, and a name is mentioned only after it was bound. -/
structure Resolved (pieces : List Piece) : Prop where
  distinct : (bound pieces).Nodup
  earlier : ∀ before name after, pieces = before ++ .mention name :: after → name ∈ bound before
  known : ∀ name, .mention name ∈ pieces → name ≠ "?"

/-- Pieces bind the numbers from one to another in their order, and mention smaller
    numbers than the next one. -/
def Threads : Nat → List Piece → Nat → Prop
  | n, [], m => n = m
  | n, .plain _ :: pieces, m => Threads n pieces m
  | n, .binding name :: pieces, m => name = toString n ∧ Threads (n + 1) pieces m
  | n, .mention name :: pieces, m => (∃ k < n, name = toString k) ∧ Threads n pieces m

variable {n m : Nat} {pieces : List Piece}

theorem threads_append {pieces' : List Piece} :
    Threads n (pieces ++ pieces') m ↔ ∃ k, Threads n pieces k ∧ Threads k pieces' m := by
  induction pieces generalizing n with
  | nil => simp [Threads]
  | cons piece pieces ih => cases piece <;> simp [Threads, ih, and_assoc]

theorem Threads.bound_eq (h : Threads n pieces m) :
    n ≤ m ∧ bound pieces = (List.range' n (m - n)).map toString := by
  induction pieces generalizing n with
  | nil =>
    obtain rfl : n = m := h
    simp [bound]
  | cons piece pieces ih =>
    cases piece with
    | plain => exact ih h
    | mention => exact ih h.2
    | binding name =>
      obtain ⟨rfl, h⟩ := h
      obtain ⟨hle, hbound⟩ := ih h
      refine ⟨by omega, ?_⟩
      obtain ⟨k, rfl⟩ := Nat.exists_eq_add_of_le hle
      rw [bound, hbound, show n + 1 + k - n = k + 1 by omega, List.range'_succ, List.map_cons,
        Nat.add_sub_cancel_left]

theorem toString_ne_unknown (n : Nat) : toString n ≠ "?" := fun h => by
  have hdigit := Text.isDigit_of_mem_toString (n := n) (c := '?') (by simp [h])
  exact absurd hdigit (by decide)

/-- Pieces that begin with the first number are resolved. -/
theorem Threads.resolved (h : Threads 0 pieces m) : Resolved pieces := by
  have hmention (before : List Piece) (name : String) (after : List Piece)
      (hsplit : pieces = before ++ .mention name :: after) :
      ∃ k : Nat, name = toString k ∧ name ∈ bound before := by
    rw [hsplit, threads_append] at h
    obtain ⟨l, hbefore, ⟨k, hk, rfl⟩, -⟩ := h
    refine ⟨k, rfl, ?_⟩
    rw [hbefore.bound_eq.2, Nat.sub_zero]
    exact List.mem_map.2 ⟨k, List.mem_range'_1.2 ⟨k.zero_le, by omega⟩, rfl⟩
  refine ⟨?_, fun before name after hsplit => ?_, fun name hname => ?_⟩
  · rw [h.bound_eq.2]
    exact (List.nodup_range' ..).map Text.toString_injective
  · obtain ⟨_, -, hmem⟩ := hmention before name after hsplit
    exact hmem
  · obtain ⟨before, after, hsplit⟩ := List.append_of_mem hname
    obtain ⟨k, rfl, -⟩ := hmention before name after hsplit
    exact toString_ne_unknown k

/-! ## Pieces of lines -/

/-- Commas bind nothing and mention nothing. -/
theorem threads_commaPieces {items : List (List Piece)} :
    Threads n (commaPieces items) m ↔ Threads n items.flatten m := by
  induction items generalizing n with
  | nil => rfl
  | cons item items ih =>
    cases items with
    | nil => simp [commaPieces]
    | cons item' items =>
      rw [commaPieces, List.intercalate_cons_cons, List.append_assoc, threads_append,
        List.flatten_cons, threads_append]
      exact exists_congr fun k => and_congr_right fun _ => ih

theorem threads_bindings (n k : Nat) :
    Threads n (valuePieces .binding ((List.range' n k).map toString)) (n + k) := by
  rw [valuePieces, threads_commaPieces]
  induction k generalizing n with
  | zero => rfl
  | succ k ih =>
    rw [List.range'_succ, show n + (k + 1) = n + 1 + k by omega]
    exact ⟨rfl, ih (n + 1)⟩

theorem threads_mentions {names : List String} (h : ∀ name ∈ names, ∃ k < n, name = toString k) :
    Threads n (valuePieces .mention names) n := by
  rw [valuePieces, threads_commaPieces]
  induction names with
  | nil => rfl
  | cons name names ih =>
    obtain ⟨hname, hnames⟩ := List.forall_mem_cons.1 h
    exact ⟨hname, ih hnames⟩

theorem threads_headPieces {head : Head} {k : Nat}
    (hresults : head.results = (List.range' n k).map toString)
    (hoperands : ∀ name ∈ head.operands, ∃ i < n + k, name = toString i) :
    Threads n (headPieces head) (n + k) := by
  have hbind : Threads n (if head.results.isEmpty then [] else
      valuePieces .binding head.results ++ [.plain " = "]) (n + k) := by
    split
    · rename_i hempty
      rw [hresults] at hempty
      obtain rfl : k = 0 := by simpa using hempty
      rfl
    · rw [hresults, threads_append]
      exact ⟨n + k, threads_bindings n k, rfl⟩
  have hmention : Threads (n + k) (if head.operands.isEmpty then [] else
      .plain " " :: valuePieces .mention head.operands) (n + k) := by
    split
    · rfl
    · exact threads_mentions hoperands
  exact threads_append.2 ⟨n + k, threads_append.2 ⟨n + k, hbind, hmention⟩, rfl⟩

theorem threads_labelPieces {label : Label} {k : Nat}
    (hargs : label.args.map Prod.fst = (List.range' n k).map toString) :
    Threads n (labelPieces label) (n + k) := by
  have hbind : Threads n (commaPieces (label.args.map argPieces)) (n + k) := by
    rw [threads_commaPieces]
    generalize label.args = args at hargs
    induction args generalizing n k with
    | nil =>
      obtain rfl : k = 0 := by simpa using hargs.symm
      rfl
    | cons arg args ih =>
      obtain ⟨k, rfl⟩ : ∃ l, k = l + 1 := Nat.exists_eq_succ_of_ne_zero (by
        rintro rfl
        cases hargs)
      rw [List.range'_succ, List.map_cons, List.map_cons, List.cons.injEq] at hargs
      rw [show n + (k + 1) = n + 1 + k by omega]
      exact ⟨hargs.1, ih hargs.2⟩
  have hitems : Threads n (if label.args.isEmpty then [] else
      .plain "(" :: commaPieces (label.args.map argPieces) ++ [.plain ")"]) (n + k) := by
    split
    · rename_i hempty
      rw [List.isEmpty_iff] at hempty
      rwa [hempty] at hbind
    · exact threads_append.2 ⟨n + k, hbind, rfl⟩
  exact threads_append.2 ⟨n + k, hitems, rfl⟩

/-! ## Pieces of lists -/

theorem opsPieces_eq (column : Nat) (terms : List OpTerm) :
    opsPieces column terms = terms.flatMap (opPieces column) := by
  induction terms with
  | nil => rfl
  | cons term terms ih => rw [opsPieces, ih, List.flatMap_cons]

theorem regionsPieces_eq (column : Nat) (terms : List RegionTerm) :
    regionsPieces column terms = terms.flatMap fun term => regionsPieces column [term] := by
  induction terms with
  | nil => rfl
  | cons term terms ih =>
    obtain ⟨blocks⟩ := term
    rw [regionsPieces, ih, List.flatMap_cons, regionsPieces, regionsPieces]
    simp

theorem blocksPieces_eq (column : Nat) (terms : List BlockTerm) :
    blocksPieces column terms = terms.flatMap fun term => blocksPieces column [term] := by
  induction terms with
  | nil => rfl
  | cons term terms ih =>
    obtain ⟨_ | label, ops⟩ := term <;>
      simp [blocksPieces, List.flatMap_cons, ← ih]

end Source

/-! ## Runs that give names -/

/-- A value has got a number. -/
def Naming.Names (ν : Naming) (v : ValueRef) : Prop := ∃ n, ν.names.lookup v = some n

/-- What a value is called. -/
def Naming.nameOf (ν : Naming) (v : ValueRef) : String :=
  match ν.names.lookup v with
  | some n => toString n
  | none => "?"

namespace Naming

variable {ν : Naming} {v : ValueRef} {vs : List ValueRef}

theorem Names.next (h : ν.Names v) (w : ValueRef) : (ν.next w).Names v := by
  obtain ⟨n, hn⟩ := h
  rw [Names, lookup_next]
  split
  · exact ⟨_, rfl⟩
  · exact ⟨n, hn⟩

theorem Names.push (h : ν.Names v) (vs : List ValueRef) : (ν.push vs).Names v := by
  induction vs generalizing ν with
  | nil => exact h
  | cons w vs ih => exact ih (h.next w)

theorem names_push (hv : v ∈ vs) : (ν.push vs).Names v := by
  induction vs generalizing ν with
  | nil => cases hv
  | cons w vs ih =>
    rcases List.mem_cons.1 hv with rfl | hv
    · exact Names.push ⟨_, by rw [lookup_next, if_pos rfl]⟩ vs
    · exact ih hv

end Naming

/-- The types and attributes that the text of an operation spells out can be spelled: those of
    its results, of the arguments of its blocks, and its attributes. -/
structure Context.Spelled (ctx : Context) (o : OpRef) : Prop where
  attributes : ∃ es, Quote.entries ctx (Quote.type ctx) (ctx.attributesOf o).entries = .ok es
  results : ∀ t ∈ ctx.resultTypesOf o, ∃ term, Quote.type ctx t = .ok term
  args : ∀ r ∈ ctx.regionsOf o, ∀ b ∈ ctx.blocksOf r, ∀ v ∈ ctx.args b,
    ∃ row term, ctx.value v = .ok row ∧ Quote.type ctx row.type = .ok term

namespace Quote

open Context Source

section Inversion

variable {α β : Type} {ν ν' : Naming} {x : QuoteM α} {f : α → QuoteM β} {b : β}

theorem yields_bind_iff : Yields (x >>= f) ν b ν' ↔
    ∃ a ν₁, Yields x ν a ν₁ ∧ Yields (f a) ν₁ b ν' := by
  rw [Yields, StateT.run_bind, Outcome.bind_eq_ok, Prod.exists]
  rfl

theorem yields_lift_iff {y : Except Fault α} {a : α} :
    Yields (y : QuoteM α) ν a ν' ↔ y = .ok a ∧ ν = ν' := by
  cases y with
  | error => exact iff_of_false nofun nofun
  | ok => simp [Yields, liftM, monadLift, MonadLift.monadLift, StateT.lift, StateT.run]

theorem yields_pure_iff {a a' : α} : Yields (pure a) ν a' ν' ↔ a = a' ∧ ν = ν' := by
  rw [Yields, StateT.run_pure, Outcome.pure_eq_ok, Prod.mk.injEq]

theorem yields_map_iff {g : α → β} :
    Yields (g <$> x) ν b ν' ↔ ∃ a, Yields x ν a ν' ∧ g a = b := by
  rw [Yields, StateT.run_map, Outcome.map_eq_ok, Prod.exists]
  constructor
  · rintro ⟨a, ν₁, hrun, h⟩
    obtain ⟨rfl, rfl⟩ := Prod.mk.inj h
    exact ⟨a, hrun, rfl⟩
  · rintro ⟨a, hrun, rfl⟩
    exact ⟨a, ν', hrun, rfl⟩

theorem Yields.unique {a a' : α} {ν₁ ν₂ : Naming} (h : Yields x ν a ν₁) (h' : Yields x ν a' ν₂) :
    a = a' ∧ ν₁ = ν₂ := Prod.mk.inj (Except.ok.inj (h.symm.trans h'))

end Inversion

/-- What is written between two states, the first of which gives names to what is needed, and
    the second one to what is new. -/
structure Emits (ν : Naming) (pieces : List Piece) (ν' : Naming) (new : ValueRef → Prop) :
    Prop where
  threads : Threads ν.nextValue pieces ν'.nextValue
  oneToOne : ν'.OneToOne
  keeps : ∀ v, ν.Names v → ν'.Names v
  names : ∀ v, new v → ν'.Names v

theorem Emits.append {ν ν₁ ν' : Naming} {pieces pieces' : List Piece} {new new' : ValueRef → Prop}
    (h : Emits ν pieces ν₁ new) (h' : Emits ν₁ pieces' ν' new') :
    Emits ν (pieces ++ pieces') ν' fun v => new v ∨ new' v where
  threads := threads_append.2 ⟨ν₁.nextValue, h.threads, h'.threads⟩
  oneToOne := h'.oneToOne
  keeps v hv := h'.keeps v (h.keeps v hv)
  names v hv := hv.elim (fun hv => h'.keeps v (h.names v hv)) (h'.names v)

/-- A step of quoting writes pieces, if there are names for the values that it needs, and gives
    names to new ones. -/
def Writes {α : Type} (need : ValueRef → Prop) (x : QuoteM α) (pieces : α → List Piece)
    (new : ValueRef → Prop) : Prop :=
  ∀ ν a ν', ν.OneToOne → (∀ v, need v → ν.Names v) → Yields x ν a ν' → Emits ν (pieces a) ν' new

section Writes

variable {α β : Type} {need : ValueRef → Prop}

theorem Writes.weaken {need' : ValueRef → Prop} {x : QuoteM α} {pieces : α → List Piece}
    {new : ValueRef → Prop} (h : Writes need x pieces new) (hneed : ∀ v, need v → need' v) :
    Writes need' x pieces new :=
  fun ν a ν' hν hnames => h ν a ν' hν fun v hv => hnames v (hneed v hv)

/-- A list is written one by one, each with names for what those before it defined. -/
theorem Writes.mapM {f : α → QuoteM β} {pieces : β → List Piece} {new : α → ValueRef → Prop}
    {xs : List α} (h : ∀ before x after, xs = before ++ x :: after →
      Writes (fun v => need v ∨ ∃ y ∈ before, new y v) (f x) pieces (new x)) :
    Writes need (xs.mapM f) (·.flatMap pieces) fun v => ∃ x ∈ xs, new x v := by
  induction xs generalizing need with
  | nil =>
    intro ν ys ν' hν _ hrun
    rw [List.mapM_nil, yields_pure_iff] at hrun
    obtain ⟨rfl, rfl⟩ := hrun
    exact ⟨rfl, hν, fun _ => id, by simp⟩
  | cons x xs ih =>
    intro ν ys ν' hν hnames hrun
    rw [List.mapM_cons] at hrun
    simp only [yields_bind_iff, yields_pure_iff] at hrun
    obtain ⟨y, ν₁, hx, ys, _, hxs, rfl, rfl⟩ := hrun
    have hfirst := h [] x xs rfl ν y ν₁ hν (by simpa using hnames) hx
    have hwritten : Writes (fun v => need v ∨ new x v) (xs.mapM f) (·.flatMap pieces)
        fun v => ∃ x ∈ xs, new x v := ih fun before z after hsplit => by
      refine (h (x :: before) z after (by rw [hsplit]; rfl)).weaken fun v hv => ?_
      simpa [or_assoc] using hv
    have hrest := hwritten ν₁ ys _ hfirst.oneToOne
      (fun v hv => hv.elim (fun hv => hfirst.keeps v (hnames v hv)) (hfirst.names v)) hxs
    refine ⟨?_, hrest.oneToOne, fun v hv => hrest.keeps v (hfirst.keeps v hv), fun v hv => ?_⟩
    · change Threads _ ((y :: ys).flatMap pieces) _
      rw [List.flatMap_cons]
      exact (hfirst.append hrest).threads
    · rw [List.exists_mem_cons_iff] at hv
      exact (hfirst.append hrest).names v hv

/-- A list is written one by one, if none of it gives names that the rest needs. -/
theorem Writes.mapM_separate {f : α → QuoteM β} {pieces : β → List Piece} {xs : List α}
    (h : ∀ x ∈ xs, Writes need (f x) pieces fun _ => False) :
    Writes need (xs.mapM f) (·.flatMap pieces) fun _ => False := by
  have hwritten : Writes need (xs.mapM f) (·.flatMap pieces) fun _ => ∃ x ∈ xs, False :=
    Writes.mapM fun before x after hsplit =>
      (h x (by rw [hsplit]; simp)).weaken fun _ hv => .inl hv
  simpa using hwritten

/-! ### The parts of a program -/

variable {ctx : Context}

theorem yields_mapM_nameOf_all (vs : List ValueRef) (ν : Naming) :
    Yields (vs.mapM nameOf) ν (vs.map ν.nameOf) ν := by
  induction vs with
  | nil => exact .mapM_nil _
  | cons v vs ih => exact .mapM_cons rfl ih

/-- Look-ups in the context leave the names as they are. -/
theorem state_of_yields_mapM_lift {γ δ : Type} {f : γ → Except Fault δ} {xs : List γ} {ys : List δ}
    {ν ν' : Naming} (hrun : Yields (xs.mapM fun x => (f x : QuoteM δ)) ν ys ν') : ν = ν' := by
  induction xs generalizing ν ys with
  | nil =>
    rw [List.mapM_nil, yields_pure_iff] at hrun
    exact hrun.2
  | cons x xs ih =>
    simp only [List.mapM_cons, yields_bind_iff, yields_lift_iff, yields_pure_iff] at hrun
    obtain ⟨_, _, ⟨-, rfl⟩, _, _, hxs, -, rfl⟩ := hrun
    exact ih hxs

/-- The results are named first, and then the operands are referred to. -/
theorem writes_head {o : OpRef} (h : ∀ v ∈ ctx.operandsOf o, need v) :
    Writes need (head ctx o) headPieces (· ∈ ctx.results o) := by
  intro ν line ν' hν hnames hrun
  simp only [head_eq, yields_bind_iff, yields_lift_iff, yields_pure_iff] at hrun
  obtain ⟨results, ν₁, hresults, row, _, ⟨hrow, rfl⟩, operands, ν₂, hoperands, entries, _,
    ⟨-, rfl⟩, types, _, htypes, rfl, rfl⟩ := hrun
  obtain ⟨rfl, rfl⟩ := hresults.unique (yields_mapM_define _)
  obtain ⟨rfl, rfl⟩ := hoperands.unique (yields_mapM_nameOf_all _ _)
  obtain rfl := state_of_yields_mapM_lift htypes
  have hone := hν.push (ctx.results o)
  refine ⟨?_, hone, fun v hv => hv.push _, fun v hv => Naming.names_push hv⟩
  rw [(Naming.push_eq _).1]
  refine threads_headPieces rfl fun name hname => ?_
  obtain ⟨v, hv, rfl⟩ := List.mem_map.1 hname
  obtain ⟨n, hn⟩ := (hnames v (h v (by rwa [operandsOf, readOp_of_op hrow]))).push (ctx.results o)
  refine ⟨n, ?_, by rw [Naming.nameOf, hn]⟩
  rw [← (Naming.push_eq _).1]
  exact hone.below v n hn

theorem label_of_yields {b : BlockRef} {l : Label} {ν ν' : Naming}
    (hrun : Yields (label ctx b) ν l ν') :
    l.args.map Prod.fst = (List.range' ν.nextValue (ctx.args b).length).map toString ∧
      ν' = ν.label.push (ctx.args b) := by
  simp only [label, yields_bind_iff, yields_pure_iff] at hrun
  obtain ⟨name, _, hname, args, _, hargs, rfl, rfl⟩ := hrun
  have hnext : Yields nextLabel ν s!"bb{ν.nextBlock}" ν.label := rfl
  obtain ⟨-, rfl⟩ := hname.unique hnext
  change args.map Prod.fst = (List.range' ν.label.nextValue _).map toString ∧ _
  generalize ν.label = ν at hargs
  generalize ctx.args b = vs at hargs
  induction vs generalizing ν args with
  | nil =>
    rw [List.mapM_nil, yields_pure_iff] at hargs
    obtain ⟨rfl, rfl⟩ := hargs
    exact ⟨rfl, rfl⟩
  | cons v vs ih =>
    simp only [List.mapM_cons, yields_bind_iff, yields_lift_iff, yields_pure_iff] at hargs
    obtain ⟨_, _, ⟨name, ν₁, hdefine, _, _, ⟨-, rfl⟩, _, _, ⟨-, rfl⟩, rfl, rfl⟩, _, _, hvs, rfl,
      rfl⟩ := hargs
    obtain ⟨rfl, rfl⟩ := hdefine.unique (yields_define v)
    obtain ⟨hrest, rfl⟩ := ih _ _ hvs
    rw [List.map_cons, hrest, List.length_cons, List.range'_succ, List.map_cons]
    exact ⟨rfl, rfl⟩

/-- A block goes without a label only if it has no arguments. -/
theorem args_of_isBare {bs : List BlockRef} (h : isBare ctx bs) : ∀ b ∈ bs, ctx.args b = [] := by
  match bs, h with
  | [b], h => exact List.forall_mem_singleton.2 (List.isEmpty_iff.1 h)

theorem writes_block {op : OpRef → QuoteM OpTerm} {bare : Bool} {b : BlockRef} (column : Nat)
    (hbare : bare → ctx.args b = [])
    (hops : ∀ column before p after, ctx.opsOf b = before ++ p :: after →
      Writes (fun v => (need v ∨ v ∈ ctx.args b) ∨ ∃ q ∈ before, v ∈ ctx.results q) (op p)
        (opPieces column) (· ∈ ctx.results p)) :
    Writes need (block ctx bare op b) (fun term => blocksPieces column [term]) fun _ => False := by
  intro ν term ν' hν hnames hrun
  rw [block_eq] at hrun
  simp only [yields_bind_iff, yields_lift_iff, yields_pure_iff] at hrun
  obtain ⟨label, ν₁, hlabel, row, _, ⟨hrow, rfl⟩, ops, _, hrun, rfl, rfl⟩ := hrun
  have hrow : ctx.opsOf b = row.ops := readBlock_of_block hrow _ _
  rw [← hrow] at hrun
  cases bare with
  | true =>
    obtain ⟨rfl, rfl⟩ := yields_pure_iff.1 hlabel
    have hwritten := Writes.mapM (hops (column + 2)) ν ops _ hν (fun v hv =>
      hv.elim (hnames v) fun hv => by simp [hbare rfl] at hv) hrun
    refine ⟨?_, hwritten.oneToOne, hwritten.keeps, fun v hv => hv.elim⟩
    change Threads _ (blocksPieces column [.mk none ops]) _
    rw [blocksPieces, blocksPieces, List.append_nil, opsPieces_eq]
    exact hwritten.threads
  | false =>
    obtain ⟨l, hl, rfl⟩ := yields_map_iff.1 hlabel
    obtain ⟨hargs, rfl⟩ := label_of_yields hl
    have hkeeps (v : ValueRef) (hv : ν.Names v) : (ν.label.push (ctx.args b)).Names v :=
      Naming.Names.push (ν := ν.label) hv _
    have hone : ν.label.OneToOne := ⟨hν.below, hν.injective⟩
    have hwritten := Writes.mapM (hops (column + 4)) _ ops _ (hone.push _) (fun v hv =>
      hv.elim (fun hv => hkeeps v (hnames v hv)) fun hv => Naming.names_push hv) hrun
    refine ⟨?_, hwritten.oneToOne, fun v hv => hwritten.keeps v (hkeeps v hv), fun v hv => hv.elim⟩
    have hline := threads_labelPieces hargs
    change Threads _ (blocksPieces column [.mk (some l) ops]) _
    rw [blocksPieces, blocksPieces, List.append_nil, opsPieces_eq]
    refine threads_append.2 ⟨_, hline, ?_⟩
    have hthreads := hwritten.threads
    rwa [(Naming.push_eq _).1] at hthreads

theorem writes_region {op : OpRef → QuoteM OpTerm} {r : RegionRef} (column : Nat)
    (hops : ∀ b ∈ ctx.blocksOf r, ∀ column before p after, ctx.opsOf b = before ++ p :: after →
      Writes (fun v => (need v ∨ v ∈ ctx.args b) ∨ ∃ q ∈ before, v ∈ ctx.results q) (op p)
        (opPieces column) (· ∈ ctx.results p)) :
    Writes need (region ctx op r) (fun term => regionsPieces column [term]) fun _ => False := by
  intro ν term ν' hν hnames hrun
  obtain ⟨row, _, hlift, hrun⟩ := yields_bind_iff.1 hrun
  obtain ⟨hrow, rfl⟩ := yields_lift_iff.1 hlift
  obtain ⟨blocks, _, hblocks, hrun⟩ := yields_bind_iff.1 hrun
  obtain ⟨rfl, rfl⟩ := yields_pure_iff.1 hrun
  have hlisted : ctx.blocksOf r = row.blocks := readRegion_of_region hrow _ _
  have hblock (b : BlockRef) (hb : b ∈ row.blocks) :
      Writes need (block ctx (isBare ctx row.blocks) op b)
        (fun term => blocksPieces column [term]) fun _ => False :=
    writes_block column (fun hbare => args_of_isBare hbare b hb) (hops b (hlisted ▸ hb))
  have hwritten := Writes.mapM_separate hblock ν blocks _ hν hnames hblocks
  refine ⟨?_, hwritten.oneToOne, hwritten.keeps, fun v hv => hv.elim⟩
  change Threads _ (regionsPieces column [.mk blocks]) _
  rw [regionsPieces, regionsPieces, blocksPieces_eq]
  exact threads_append.2 ⟨_, hwritten.threads, rfl⟩

end Writes

/-- What is ahead of an operation has got names when the operation is written. -/
theorem writes_opWithin {ctx : Context} {tree : List OpRef} (h : ctx.Checked tree) {n : Nat}
    {o : OpRef} (column : Nat) (ho : o ∈ tree) :
    Writes (ctx.Ahead o) (opWithin ctx n o) (opPieces column) (· ∈ ctx.results o) := by
  induction n generalizing o column with
  | zero => exact fun _ _ _ _ _ hrun => by cases hrun
  | succ n ih =>
    intro ν term ν' hν hnames hrun
    simp only [opWithin, yields_bind_iff, yields_lift_iff, yields_pure_iff] at hrun
    obtain ⟨line, ν₁, hhead, row, _, ⟨hrow, rfl⟩, regions, _, hregions, rfl, rfl⟩ := hrun
    have hlisted : ctx.regionsOf o = row.regions := readOp_of_op hrow _ _
    have hregion (r : RegionRef) (hr : r ∈ row.regions) :
        Writes (ctx.Ahead o) (region ctx (opWithin ctx n) r)
          (fun term => regionsPieces column [term]) fun _ => False := by
      rw [← hlisted] at hr
      refine writes_region column fun b hb column before p after hsplit => ?_
      obtain ⟨hp, hmem⟩ := h.listed o ho r hr b hb p (by rw [hsplit]; simp)
      refine (ih column hmem).weaken fun v hv => ?_
      rcases hv.cases hp (h.holder o ho r hr b hb) hsplit with hv | hv | hv
      · exact .inl (.inr hv)
      · exact .inr hv
      · exact .inl (.inl hv)
    have hfirst := writes_head (h.ahead o ho) ν line ν₁ hν hnames hhead
    have hrest := Writes.mapM_separate hregion ν₁ regions _ hfirst.oneToOne
      (fun v hv => hfirst.keeps v (hnames v hv)) hregions
    refine ⟨?_, hrest.oneToOne, fun v hv => hrest.keeps v (hfirst.keeps v hv),
      fun v hv => hrest.keeps v (hfirst.names v hv)⟩
    rw [opPieces, regionsPieces_eq]
    exact threads_append.2 ⟨_, (hfirst.append hrest).threads, rfl⟩

/-! ## Runs that end -/

/-- A step of quoting gives a result, whatever names there are. -/
def Ends {α : Type} (x : QuoteM α) : Prop := ∀ ν, ∃ a ν', Yields x ν a ν'

section Ends

variable {α β : Type}

theorem Ends.pure (a : α) : Ends (pure a : QuoteM α) := fun ν => ⟨a, ν, rfl⟩

theorem Ends.bind {x : QuoteM α} {f : α → QuoteM β} (hx : Ends x) (hf : ∀ a, Ends (f a)) :
    Ends (x >>= f) := fun ν => by
  obtain ⟨a, ν₁, ha⟩ := hx ν
  obtain ⟨b, ν', hb⟩ := hf a ν₁
  exact ⟨b, ν', ha.bind hb⟩

/-- A look-up that succeeds. -/
theorem Ends.lift_bind {x : Except Fault α} {a : α} {f : α → QuoteM β} (hx : x = .ok a)
    (hf : Ends (f a)) : Ends ((x : QuoteM α) >>= f) := fun ν => by
  obtain ⟨b, ν', hb⟩ := hf ν
  exact ⟨b, ν', (Yields.lift hx).bind hb⟩

theorem Ends.mapM {f : α → QuoteM β} {xs : List α} (h : ∀ x ∈ xs, Ends (f x)) :
    Ends (xs.mapM f) := by
  induction xs with
  | nil =>
    rw [List.mapM_nil]
    exact .pure []
  | cons x xs ih =>
    obtain ⟨hx, hxs⟩ := List.forall_mem_cons.1 h
    rw [List.mapM_cons]
    exact hx.bind fun y => (ih hxs).bind fun ys => .pure (y :: ys)

end Ends

variable {ctx : Context}

theorem ends_head {o : OpRef} (ho : ctx.HasOp o) (h : ctx.Spelled o) : Ends (head ctx o) := by
  obtain ⟨row, hrow⟩ := hasOp_iff.1 ho
  obtain ⟨es, hes⟩ := h.attributes
  rw [attributesOf, readOp_of_op hrow] at hes
  have hresults : ctx.resultTypesOf o = row.resultTypes := readOp_of_op hrow _ _
  rw [head_eq]
  refine .bind (.mapM fun v _ ν => ⟨_, _, yields_define v⟩) fun results => .lift_bind hrow ?_
  refine .bind (.mapM fun v _ ν => ⟨ν.nameOf v, ν, rfl⟩) fun operands =>
    .lift_bind (entries_shown hes fun key =>
      ((row.attributes.get? "sym_name").bind Attribute.asSymbol?).isNone || key ≠ "sym_name") ?_
  refine .bind (.mapM fun t ht ν => ?_) fun types => .pure _
  obtain ⟨term, hterm⟩ := h.results t (hresults ▸ ht)
  exact ⟨term, ν, .lift hterm⟩

theorem ends_label {b : BlockRef} (h : ∀ v ∈ ctx.args b,
    ∃ row term, ctx.value v = .ok row ∧ Quote.type ctx row.type = .ok term) :
    Ends (label ctx b) := by
  refine .bind (fun ν => ⟨_, ν.label, rfl⟩) fun name =>
    .bind (.mapM fun v hv => ?_) fun args => .pure _
  obtain ⟨row, term, hrow, hterm⟩ := h v hv
  exact .bind (fun ν => ⟨_, _, yields_define v⟩) fun name =>
    .lift_bind hrow (.lift_bind hterm (.pure _))

theorem ends_region {op : OpRef → QuoteM OpTerm} {r : RegionRef} {l : List OpRef}
    (hrun : ctx.regionOps r = .ok l)
    (hargs : ∀ b ∈ ctx.blocksOf r, ∀ v ∈ ctx.args b,
      ∃ row term, ctx.value v = .ok row ∧ Quote.type ctx row.type = .ok term)
    (hops : ∀ o ∈ l, Ends (op o)) : Ends (region ctx op r) := by
  obtain ⟨row, hrow, hblocks⟩ := Outcome.bind_eq_ok.1 hrun
  obtain ⟨ls, hls, rfl⟩ := Outcome.flatMapM_eq_ok.1 hblocks
  have hlisted : ctx.blocksOf r = row.blocks := readRegion_of_region hrow _ _
  refine .lift_bind hrow (.bind (.mapM (f := block ctx (isBare ctx row.blocks) op) fun b hb => ?_)
    fun bs => .pure _)
  obtain ⟨l, hl, hops'⟩ := Outcome.exists_of_mem_left hls hb
  obtain ⟨brow, hbrow, hpure⟩ := Outcome.bind_eq_ok.1 hops'
  obtain rfl := Outcome.pure_eq_ok.1 hpure
  rw [block_eq]
  refine .bind ?_ fun label => .lift_bind hbrow (.bind (.mapM fun o ho =>
    hops o (List.mem_flatten.2 ⟨_, hl, ho⟩)) fun ops => .pure _)
  split
  · exact .pure none
  · intro ν
    obtain ⟨l, ν', hlabel⟩ := ends_label (hargs b (hlisted ▸ hb)) ν
    exact ⟨some l, ν', hlabel.map some⟩

/-- Quoting goes as deep as the list of the tree does. -/
theorem ends_opWithin {n : Nat} {o : OpRef} {l : List OpRef} (hrun : ctx.subtreeWithin n o = .ok l)
    (h : ∀ p ∈ l, ctx.Spelled p) : Ends (opWithin ctx n o) := by
  induction n generalizing o l with
  | zero => simp [subtreeWithin] at hrun
  | succ n ih =>
    simp only [subtreeWithin, Outcome.bind_eq_ok, Outcome.pure_eq_ok] at hrun
    obtain ⟨cs, hcs, rest, hrest, rfl⟩ := hrun
    obtain ⟨row, hrow, hchildren⟩ := Outcome.bind_eq_ok.1 hcs
    obtain ⟨ls, hls, rfl⟩ := Outcome.flatMapM_eq_ok.1 hrest
    obtain ⟨css, hcss, rfl⟩ := Outcome.flatMapM_eq_ok.1 hchildren
    have hspelled := h o List.mem_cons_self
    have hlisted : ctx.regionsOf o = row.regions := readOp_of_op hrow _ _
    have hchild (c : OpRef) (hc : c ∈ css.flatten) : Ends (opWithin ctx n c) := by
      obtain ⟨l, hl, hrun⟩ := Outcome.exists_of_mem_left hls hc
      exact ih hrun fun p hp => h p (List.mem_cons_of_mem _ (List.mem_flatten.2 ⟨l, hl, hp⟩))
    refine .bind (ends_head (hasOp_iff.2 ⟨row, hrow⟩) hspelled) fun line => .lift_bind hrow
      (.bind (.mapM fun r hr => ?_) fun regions => .pure _)
    obtain ⟨l, hl, hops⟩ := Outcome.exists_of_mem_left hcss hr
    exact ends_region hops (hspelled.args r (hlisted ▸ hr)) fun c hc =>
      hchild c (List.mem_flatten.2 ⟨l, hl, hc⟩)

end Quote

namespace Context

open Source

/-- What is accepted at a detached root by the checks of links and of scope, in whatever context,
    is printed if its types and attributes can be spelled; and what is printed binds each name
    once, and mentions no name before. -/
theorem Changes.print_resolved {ctx : Context} {root : OpRef} (h : empty.Changes ctx)
    (hroot : ctx.blockOf root = none) (hlinks : ctx.checkLinks root = .ok [])
    (hscope : ctx.checkScoping root = .ok []) :
    (∀ tree, ctx.subtree root = .ok tree → (∀ o ∈ tree, ctx.Spelled o) →
      ∃ text, ctx.print root = .ok text) ∧
    ∀ text, ctx.print root = .ok text →
      ∃ term, ctx.quote root = .ok term ∧ text = joined term.pieces ∧ Resolved term.pieces := by
  obtain ⟨tree, htree, hchecked⟩ := checked_of_nil h.sourced hlinks hscope
  refine ⟨fun tree' htree' hspelled => ?_, fun text hrun => ?_⟩
  · obtain ⟨term, ν, hyields⟩ := Quote.ends_opWithin htree' hspelled {}
    have hterm : ctx.quote root = .ok term := Outcome.map_eq_ok.2 ⟨(term, ν), hyields, rfl⟩
    exact ⟨term.text, by rw [print, hterm]; rfl⟩
  · obtain ⟨term, hterm, htext⟩ := Outcome.bind_eq_ok.1 hrun
    refine ⟨term, hterm, ?_, ?_⟩
    · rw [← OpTerm.text_eq_joined, Outcome.pure_eq_ok.1 htext]
    · obtain ⟨⟨_, ν'⟩, hyields, rfl⟩ := Outcome.map_eq_ok.1 hterm
      have hmem : root ∈ tree := by
        obtain ⟨-, _, -, rfl⟩ := subtreeWithin_succ_eq_ok htree
        exact List.mem_cons_self
      have hwritten := Quote.writes_opWithin hchecked 0 hmem {} _ ν'
        ⟨fun _ _ h => by simp at h, fun _ _ _ h => by simp at h⟩
        (fun v hv => (not_ahead_of_detached hroot v hv).elim) hyields
      exact hwritten.threads.resolved

/-- The text of a block with an argument and two operations. -/
def blockText : String :=
  "test.top \x7b
  ^bb0(%0: core.i32):
    %1 = test.def : core.i32
    test.use %1, %0
\x7d
"

/-- The second operation of a block uses the argument and the result of the first one. -/
theorem print_resolved_block : ∃ ctx : Context, empty.Changes ctx ∧
    (ctx.blockOf ⟨2⟩ = none ∧ ctx.checkLinks ⟨2⟩ = .ok [] ∧ ctx.checkScoping ⟨2⟩ = .ok []) ∧
    ctx.print ⟨2⟩ = .ok blockText ∧
    ∃ term, ctx.quote ⟨2⟩ = .ok term ∧ blockText = joined term.pieces ∧ Resolved term.pieces := by
  let define : Blueprint := ⟨default, ⟨"test", "def"⟩, [], [⟨0⟩], .empty, []⟩
  let ctx₁ : Context := { empty with types := .ofList [⟨"core", "i32", [], .empty⟩] }
  let ctx₂ := (ctx₁.addOp define).1
  let ctx₃ := (ctx₂.addBlock default [⟨0⟩] [⟨0⟩]).1
  let ctx₄ := (ctx₃.addOp ⟨default, ⟨"test", "use"⟩, [⟨0⟩, ⟨1⟩], [], .empty, []⟩).1
  let ctx₅ := ctx₄.append ⟨0⟩ ⟨1⟩
  let ctx₆ := (ctx₅.addRegion default [⟨0⟩]).1
  let ctx₇ := (ctx₆.addOp ⟨default, ⟨"test", "top"⟩, [], [], .empty, [⟨0⟩]⟩).1
  have run₁ : (empty.internType ⟨"core", "i32", [], .empty⟩).1 = ctx₁ := rfl
  have run₂ : ctx₁.createOp define = .ok (ctx₂, ⟨0⟩) := rfl
  have run₃ : ctx₂.createBlock default [⟨0⟩] [⟨0⟩] = .ok (ctx₃, ⟨0⟩) := rfl
  have run₄ : ctx₃.createOp ⟨default, ⟨"test", "use"⟩, [⟨0⟩, ⟨1⟩], [], .empty, []⟩ =
    .ok (ctx₄, ⟨1⟩) := rfl
  have run₅ : ctx₄.pushOp ⟨0⟩ ⟨1⟩ = .ok ctx₅ := rfl
  have run₆ : ctx₅.createRegion default [⟨0⟩] = .ok (ctx₆, ⟨0⟩) := rfl
  have run₇ : ctx₆.createOp ⟨default, ⟨"test", "top"⟩, [], [], .empty, [⟨0⟩]⟩ =
    .ok (ctx₇, ⟨2⟩) := rfl
  have hchanges : empty.Changes ctx₇ :=
    (((((Relation.ReflTransGen.single (run₁ ▸ .call (.internType _))).tail
      (.call (.createOp run₂))).tail (.call (.createBlock run₃))).tail
      (.call (.createOp run₄))).tail (.call (.pushOp run₅))).tail
      (.call (.createRegion run₆)) |>.tail (.call (.createOp run₇))
  have hroot : ctx₇.blockOf ⟨2⟩ = none := rfl
  have hlinks : ctx₇.checkLinks ⟨2⟩ = .ok [] := Outcome.eq_ok_of_toOption (by decide +kernel)
  have hscope : ctx₇.checkScoping ⟨2⟩ = .ok [] := Outcome.eq_ok_of_toOption (by decide +kernel)
  have htext : ctx₇.print ⟨2⟩ = .ok blockText := Outcome.eq_ok_of_toOption (by decide +kernel)
  obtain ⟨-, hresolved⟩ := hchanges.print_resolved hroot hlinks hscope
  exact ⟨ctx₇, hchanges, ⟨hroot, hlinks, hscope⟩, htext, hresolved blockText htext⟩

end Context

end Offload
