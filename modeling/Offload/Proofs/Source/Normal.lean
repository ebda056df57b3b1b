import Mathlib.Data.List.Sort
import Mathlib.Data.String.Basic
import Offload.Proofs.Position
import Offload.Proofs.Source.Spelling
import Offload.Source.Printer

/-!
# Normal terms

Many terms describe the same operation: the names of values and blocks are free,
and attributes may come in any order, the last one under a key being the one that
counts. The *normal form* of a term settles all of this the way the printer does.
Attributes are in the order of their keys, values and blocks are numbered in the
order in which the text defines them, and nothing is said about places in a text.

The normal form follows names as building does, so a term has one iff building finds
a value for every name. A normal form is its own normal form (`op_normal`).
-/

namespace Offload

/-! ## Attributes in order -/

namespace Entry

def key : Entry → String
  | mk key _ => key

/-- Put an attribute under a key into a list that is in the order of keys. -/
def put (key : String) (a : AttributeTerm) : List Entry → List Entry
  | [] => [.mk key a]
  | .mk k b :: rest =>
    if key < k then .mk key a :: .mk k b :: rest
    else if key = k then .mk key a :: rest
    else .mk k b :: put key a rest

/-- The entries are in the order of their keys. -/
def Sorted (es : List Entry) : Prop := es.Pairwise fun e f => e.key < f.key

variable {key : String} {a : AttributeTerm} {es es' : List Entry}

theorem mem_of_mem_put {e : Entry} (h : e ∈ put key a es) : e = .mk key a ∨ e ∈ es := by
  induction es with
  | nil => simpa [put] using h
  | cons f rest ih =>
    obtain ⟨k, b⟩ := f
    rw [put] at h
    split at h
    · exact List.mem_cons.1 h
    split at h
    · exact (List.mem_cons.1 h).imp id fun h => List.mem_cons_of_mem _ h
    · rcases List.mem_cons.1 h with rfl | h
      · exact .inr List.mem_cons_self
      · exact (ih h).imp id (List.mem_cons_of_mem _)

/-- An attribute under a new key puts no other one out. -/
theorem mem_put (hkey : ∀ e ∈ es, e.key ≠ key) (e : Entry) :
    e ∈ put key a es ↔ e = .mk key a ∨ e ∈ es := by
  induction es with
  | nil => simp [put]
  | cons f rest ih =>
    obtain ⟨k, b⟩ := f
    obtain ⟨hk, hrest⟩ := List.forall_mem_cons.1 hkey
    rw [put]
    split
    · rw [List.mem_cons]
    · rw [if_neg fun heq => hk heq.symm, List.mem_cons, ih hrest, List.mem_cons]
      tauto

theorem Sorted.put (h : Sorted es) : Sorted (put key a es) := by
  induction es with
  | nil => exact List.pairwise_singleton _ _
  | cons f rest ih =>
    obtain ⟨k, b⟩ := f
    obtain ⟨hk, hrest⟩ := List.pairwise_cons.1 h
    rw [Entry.put]
    split
    · rename_i hlt
      refine List.pairwise_cons.2 ⟨fun e he => ?_, h⟩
      rcases List.mem_cons.1 he with rfl | he
      · exact hlt
      · exact hlt.trans (hk e he)
    · rename_i hle
      split
      · rename_i heq
        subst heq
        exact List.pairwise_cons.2 ⟨hk, hrest⟩
      · rename_i hne
        refine List.pairwise_cons.2 ⟨fun e he => ?_, ih hrest⟩
        rcases mem_of_mem_put he with rfl | he
        · exact lt_of_le_of_ne (not_lt.1 hle) (Ne.symm hne)
        · exact hk e he

theorem Sorted.eq_of_key (h : Sorted es) {e f : Entry} (he : e ∈ es) (hf : f ∈ es)
    (hkey : e.key = f.key) : e = f := by
  by_contra hne
  rcases List.Pairwise.forall_of_forall_of_flip (R := fun e f : Entry => e ≠ f → e.key ≠ f.key)
    (fun e _ hne => absurd rfl hne) (h.imp fun hlt _ => hlt.ne)
    (h.imp fun hlt _ => hlt.ne') he hf hne hkey

/-- Entries in order are told by what is among them. -/
theorem Sorted.eq_of_mem_iff (h : Sorted es) (h' : Sorted es') (hmem : ∀ e, e ∈ es ↔ e ∈ es') :
    es = es' := by
  have : Std.Irrefl fun e f : Entry => e.key < f.key := ⟨fun e => lt_irrefl e.key⟩
  have : Std.Antisymm fun e f : Entry => e.key < f.key := ⟨fun e f h h' => absurd h' h.asymm⟩
  exact List.Pairwise.eq_of_mem_iff h h' hmem

end Entry

namespace Normal

/-! ## The normal form of types and attributes -/

mutual

/-- The normal form of a type. -/
def type : TypeTerm → TypeTerm
  | .mk dialect name params es => .mk dialect name (types params) (entries es [])

def types : List TypeTerm → List TypeTerm
  | [] => []
  | t :: ts => type t :: types ts

/-- The normal form of an attribute. -/
def value : AttributeTerm → AttributeTerm
  | .type t => .type (type t)
  | .list items => .list (values items)
  | .unit => .unit
  | .bool b => .bool b
  | .int bits => .int bits
  | .float x => .float x
  | .string s => .string s
  | .bytes data => .bytes data
  | .symbol name => .symbol name
  | .location path span => .location path span

def values : List AttributeTerm → List AttributeTerm
  | [] => []
  | a :: as => value a :: values as

/-- Attributes in normal form, with those of further entries put among them. -/
def entries : List Entry → List Entry → List Entry
  | [], es => es
  | .mk key a :: rest, es => entries rest (Entry.put key (value a) es)

end

theorem types_eq_map (ts : List TypeTerm) : types ts = ts.map type := by
  induction ts with
  | nil => rfl
  | cons t ts ih => rw [types, ih, List.map_cons]

/-- Attributes are in normal form, and in the order of their keys. -/
structure Tidy (es : List Entry) : Prop where
  sorted : Entry.Sorted es
  normal : ∀ key a, Entry.mk key a ∈ es → value a = a

theorem tidy_nil : Tidy [] := ⟨List.Pairwise.nil, by simp⟩

theorem tidy_singleton {key : String} {a : AttributeTerm} (ha : value a = a) :
    Tidy [.mk key a] := by
  refine ⟨List.pairwise_singleton _ _, fun k b hb => ?_⟩
  rw [List.mem_singleton] at hb
  cases hb
  exact ha

theorem Tidy.put {es : List Entry} (h : Tidy es) {key : String} {a : AttributeTerm}
    (ha : value a = a) : Tidy (Entry.put key a es) := by
  refine ⟨h.sorted.put, fun k b hb => ?_⟩
  rcases Entry.mem_of_mem_put hb with heq | hb
  · cases heq
    exact ha
  · exact h.normal k b hb

/-- Entries with keys of their own are put among others without loss. -/
theorem mem_entries {es acc : List Entry} (hes : Tidy es)
    (hkeys : ∀ e ∈ es, ∀ f ∈ acc, f.key ≠ e.key) (e : Entry) :
    e ∈ entries es acc ↔ e ∈ es ∨ e ∈ acc := by
  induction es generalizing acc with
  | nil => simp [entries]
  | cons f rest ih =>
    obtain ⟨key, a⟩ := f
    obtain ⟨hlt, hsorted⟩ := List.pairwise_cons.1 hes.sorted
    obtain ⟨hkey, hrest⟩ := List.forall_mem_cons.1 hkeys
    have hnormal : value a = a := hes.normal key a List.mem_cons_self
    have hput : e ∈ Entry.put key a acc ↔ e = .mk key a ∨ e ∈ acc := Entry.mem_put hkey e
    rw [entries, hnormal, ih ⟨hsorted, fun k b hb => hes.normal k b (List.mem_cons_of_mem _ hb)⟩,
      hput, List.mem_cons]
    · tauto
    · intro g hg f hf
      rcases Entry.mem_of_mem_put hf with rfl | hf
      · exact (hlt g hg).ne
      · exact hrest g hg f hf

theorem sorted_entries {es acc : List Entry} (h : Entry.Sorted acc) :
    Entry.Sorted (entries es acc) := by
  induction es generalizing acc with
  | nil => rwa [entries]
  | cons e rest ih =>
    obtain ⟨key, a⟩ := e
    rw [entries]
    exact ih h.put

theorem entries_of_tidy {es : List Entry} (h : Tidy es) : entries es [] = es :=
  (sorted_entries List.Pairwise.nil).eq_of_mem_iff h.sorted fun e => by
    rw [mem_entries h (by simp)]
    simp

mutual

/-- A normal form is its own normal form. -/
theorem type_type : ∀ t, type (type t) = type t
  | .mk dialect name params es => by
    rw [type, type, types_types, entries_of_tidy (entries_tidy es [] tidy_nil)]

theorem types_types : ∀ ts, types (types ts) = types ts
  | [] => rfl
  | t :: ts => by rw [types, types, type_type, types_types]

theorem value_value : ∀ a, value (value a) = value a
  | .type t => by rw [value, value, type_type]
  | .list items => by rw [value, value, values_values]
  | .unit => by rw [value, value]
  | .bool _ => by rw [value, value]
  | .int _ => by rw [value, value]
  | .float _ => by rw [value, value]
  | .string _ => by rw [value, value]
  | .bytes _ => by rw [value, value]
  | .symbol _ => by rw [value, value]
  | .location _ _ => by rw [value, value]

theorem values_values : ∀ as, values (values as) = values as
  | [] => rfl
  | a :: as => by rw [values, values, value_value, values_values]

theorem entries_tidy : ∀ es acc, Tidy acc → Tidy (entries es acc)
  | [], acc, hacc => by rwa [entries]
  | .mk key a :: rest, acc, hacc => by
    rw [entries]
    exact entries_tidy rest _ (hacc.put (value_value a))

end

/-! ## The normal form of a line -/

/-- The attributes of an operation, the symbol after its name among them. -/
def headEntries (head : Head) : List Entry :=
  entries head.entries (head.symbol.elim [] fun name => [.mk "sym_name" (.symbol name)])

theorem tidy_headEntries (head : Head) : Tidy (headEntries head) := by
  refine entries_tidy _ _ ?_
  cases head.symbol with
  | none => exact tidy_nil
  | some name => exact tidy_singleton (by rw [value])

/-- The name that a symbol among the attributes gives to the operation. -/
def symbolIn : List Entry → Option String
  | [] => none
  | .mk key (.symbol name) :: rest => if key = "sym_name" then some name else symbolIn rest
  | .mk key _ :: rest => if key = "sym_name" then none else symbolIn rest

theorem mem_of_symbolIn {es : List Entry} {name : String} (h : symbolIn es = some name) :
    Entry.mk "sym_name" (.symbol name) ∈ es := by
  induction es using symbolIn.induct with
  | case1 => cases h
  | case2 n rest =>
    rw [symbolIn, if_pos rfl] at h
    cases h
    exact List.mem_cons_self
  | case3 key n rest hne ih =>
    rw [symbolIn, if_neg hne] at h
    exact List.mem_cons_of_mem _ (ih h)
  | case4 a rest ha =>
    rw [symbolIn, if_pos rfl] at h
    · cases h
    · exact ha
  | case5 key a rest ha hne ih =>
    rw [symbolIn, if_neg hne] at h
    · exact List.mem_cons_of_mem _ (ih h)
    · exact ha

/-- The attributes that are written in braces: not the one after the name. -/
def shown (es : List Entry) : List Entry :=
  es.filter fun e => (symbolIn es).isNone || e.key ≠ "sym_name"

/-- The normal form of a line, with the numbers of the values as their names. -/
def head (results operands : List Nat) (h : Head) : Head where
  results := results.map toString
  kind := h.kind
  symbol := symbolIn (headEntries h)
  operands := operands.map toString
  entries := shown (headEntries h)
  types := types h.types
  span := ⟨0, 0⟩

/-- What is written after the name and in braces adds up to all attributes again. -/
theorem headEntries_head (results operands : List Nat) (h : Head) :
    headEntries (head results operands h) = headEntries h := by
  have htidy := tidy_headEntries h
  rw [headEntries, head]
  dsimp only
  cases hsymbol : symbolIn (headEntries h) with
  | none =>
    have hall : shown (headEntries h) = headEntries h := by
      rw [shown, hsymbol]
      simp
    rw [hall]
    exact entries_of_tidy htidy
  | some name =>
    have hshown (e : Entry) : e ∈ shown (headEntries h) ↔ e ∈ headEntries h ∧ e.key ≠ "sym_name" := by
      rw [shown, hsymbol, List.mem_filter]
      simp
    have hmem := mem_of_symbolIn hsymbol
    have htidy' : Tidy (shown (headEntries h)) :=
      ⟨htidy.sorted.filter _, fun key a ha => htidy.normal key a ((hshown _).1 ha).1⟩
    refine (sorted_entries (List.pairwise_singleton _ _)).eq_of_mem_iff htidy.sorted fun e => ?_
    rw [mem_entries htidy' fun f hf g hg => ?_, hshown, List.mem_singleton]
    · constructor
      · rintro (⟨he, -⟩ | rfl)
        · exact he
        · exact hmem
      · intro he
        by_cases hkey : e.key = "sym_name"
        · exact .inr (htidy.sorted.eq_of_key he hmem hkey)
        · exact .inl ⟨he, hkey⟩
    · rw [List.mem_singleton] at hg
      subst hg
      exact fun heq => ((hshown f).1 hf).2 heq.symm

end Normal

/-! ## The normal form of operations -/

/-- The numbers given out so far, to names and to blocks. -/
structure Numbering where
  names : List (String × Nat) := []
  nextValue : Nat := 0
  nextBlock : Nat := 0

namespace Numbering

variable (st : Numbering)

/-- The numbers of the next values. -/
def fresh (count : Nat) : List Nat := List.range' st.nextValue count

/-- So many values have got numbers. -/
def skip (count : Nat) : Numbering := { st with nextValue := st.nextValue + count }

/-- A block has got its number. -/
def nextLabel : Numbering := { st with nextBlock := st.nextBlock + 1 }

/-- The number that a name stands for. -/
def resolve (name : String) : Option Nat := st.names.lookup name

/-- Let names stand for numbers. -/
def bind (names : List String) (numbers : List Nat) : Numbering :=
  { st with names := (names.zip numbers).reverse ++ st.names }

end Numbering

/-- The arguments of a block. -/
def BlockTerm.args : BlockTerm → List (String × TypeTerm)
  | mk label _ => (label.map Label.args).getD []

namespace Normal

/-- Whether the only block of a region goes without a label. -/
def isBare (terms : List BlockTerm) : Bool := terms.map (·.args.length) = [0]

/-- The normal form of a label. -/
def label (bare : Bool) (args : List (String × TypeTerm)) (st : Numbering) : Option Label :=
  if bare then none
  else some ⟨s!"bb{st.nextBlock}",
    ((st.fresh args.length).map toString).zip (types (args.map Prod.snd))⟩

/-- What is numbered before the operations of a block. -/
def enter (bare : Bool) (args : List (String × TypeTerm)) (st : Numbering) : Numbering :=
  let st' := (st.skip args.length).bind (args.map Prod.fst) (st.fresh args.length)
  if bare then st' else st'.nextLabel

mutual

/-- The normal form of an operation, if there is a value for every name. -/
def op : OpTerm → Numbering → Option (OpTerm × Numbering)
  | .mk h terms, st => do
    guard (h.results.length = h.types.length)
    let operands ← h.operands.mapM st.resolve
    let results := st.fresh h.results.length
    let (terms, st) ← regions terms (st.skip h.results.length)
    return (.mk (head results operands h) terms, st.bind h.results results)

/-- The normal forms of the regions of an operation. -/
def regions : List RegionTerm → Numbering → Option (List RegionTerm × Numbering)
  | [], st => return ([], st)
  | .mk blockTerms :: rest, st => do
    let (blockTerms, st) ← blocks (isBare blockTerms) blockTerms st
    let (rest, st) ← regions rest st
    return (.mk blockTerms :: rest, st)

/-- The normal forms of the blocks of a region. -/
def blocks (bare : Bool) : List BlockTerm → Numbering → Option (List BlockTerm × Numbering)
  | [], st => return ([], st)
  | .mk l terms :: rest, st => do
    let args := (BlockTerm.mk l terms).args
    let (terms, st') ← ops terms (enter bare args st)
    let (rest, st'') ← blocks bare rest st'
    return (.mk (label bare args st) terms :: rest, st'')

/-- The normal forms of the operations of a block. -/
def ops : List OpTerm → Numbering → Option (List OpTerm × Numbering)
  | [], st => return ([], st)
  | term :: rest, st => do
    let (term, st) ← op term st
    let (rest, st) ← ops rest st
    return (term :: rest, st)

end

section

variable {st st' : Numbering}

theorem op_eq_some {h : Head} {terms : List RegionTerm} {M : OpTerm} :
    op (.mk h terms) st = some (M, st') ↔
      h.results.length = h.types.length ∧ ∃ operands Ms st₁,
        h.operands.mapM st.resolve = some operands ∧
        regions terms (st.skip h.results.length) = some (Ms, st₁) ∧
        M = .mk (head (st.fresh h.results.length) operands h) Ms ∧
        st' = st₁.bind h.results (st.fresh h.results.length) := by
  rw [op]
  simp only [Option.bind_eq_bind, Option.bind_eq_some_iff, Option.guard_eq_some', Option.pure_def,
    Option.some.injEq, Prod.mk.injEq, Prod.exists]
  constructor
  · rintro ⟨⟨⟩, hlength, operands, hoperands, Ms, st₁, hregions, rfl, rfl⟩
    exact ⟨hlength, operands, Ms, st₁, hoperands, hregions, rfl, rfl⟩
  · rintro ⟨hlength, operands, Ms, st₁, hoperands, hregions, rfl, rfl⟩
    exact ⟨(), hlength, operands, hoperands, Ms, st₁, hregions, rfl, rfl⟩

theorem regions_nil_eq_some {Ms : List RegionTerm} :
    regions [] st = some (Ms, st') ↔ Ms = [] ∧ st' = st := by
  rw [regions, Option.pure_def, Option.some.injEq, Prod.mk.injEq, eq_comm, eq_comm (a := st)]

theorem regions_cons_eq_some {terms : List BlockTerm} {rest Ms : List RegionTerm} :
    regions (.mk terms :: rest) st = some (Ms, st') ↔ ∃ Bs st₁ Rs,
      blocks (isBare terms) terms st = some (Bs, st₁) ∧ regions rest st₁ = some (Rs, st') ∧
      Ms = .mk Bs :: Rs := by
  rw [regions]
  simp only [Option.bind_eq_bind, Option.bind_eq_some_iff, Option.pure_def, Option.some.injEq,
    Prod.mk.injEq, Prod.exists]
  constructor
  · rintro ⟨Bs, st₁, hblocks, Rs, st₂, hrest, rfl, rfl⟩
    exact ⟨Bs, st₁, Rs, hblocks, hrest, rfl⟩
  · rintro ⟨Bs, st₁, Rs, hblocks, hrest, rfl⟩
    exact ⟨Bs, st₁, hblocks, Rs, st', hrest, rfl, rfl⟩

theorem blocks_nil_eq_some {bare : Bool} {Ms : List BlockTerm} :
    blocks bare [] st = some (Ms, st') ↔ Ms = [] ∧ st' = st := by
  rw [blocks, Option.pure_def, Option.some.injEq, Prod.mk.injEq, eq_comm, eq_comm (a := st)]

theorem blocks_cons_eq_some {bare : Bool} {l : Option Label} {terms : List OpTerm}
    {rest Ms : List BlockTerm} :
    blocks bare (.mk l terms :: rest) st = some (Ms, st') ↔ ∃ Os st₁ Bs,
      ops terms (enter bare (BlockTerm.mk l terms).args st) = some (Os, st₁) ∧
      blocks bare rest st₁ = some (Bs, st') ∧
      Ms = .mk (label bare (BlockTerm.mk l terms).args st) Os :: Bs := by
  rw [blocks]
  simp only [Option.bind_eq_bind, Option.bind_eq_some_iff, Option.pure_def, Option.some.injEq,
    Prod.mk.injEq, Prod.exists]
  constructor
  · rintro ⟨Os, st₁, hops, Bs, st₂, hrest, rfl, rfl⟩
    exact ⟨Os, st₁, Bs, hops, hrest, rfl⟩
  · rintro ⟨Os, st₁, Bs, hops, hrest, rfl⟩
    exact ⟨Os, st₁, hops, Bs, st', hrest, rfl, rfl⟩

theorem ops_nil_eq_some {Ms : List OpTerm} :
    ops [] st = some (Ms, st') ↔ Ms = [] ∧ st' = st := by
  rw [ops, Option.pure_def, Option.some.injEq, Prod.mk.injEq, eq_comm, eq_comm (a := st)]

theorem ops_cons_eq_some {term : OpTerm} {rest Ms : List OpTerm} :
    ops (term :: rest) st = some (Ms, st') ↔ ∃ M st₁ Os,
      op term st = some (M, st₁) ∧ ops rest st₁ = some (Os, st') ∧ Ms = M :: Os := by
  rw [ops]
  simp only [Option.bind_eq_bind, Option.bind_eq_some_iff, Option.pure_def, Option.some.injEq,
    Prod.mk.injEq, Prod.exists]
  constructor
  · rintro ⟨M, st₁, hop, Os, st₂, hrest, rfl, rfl⟩
    exact ⟨M, st₁, Os, hop, hrest, rfl⟩
  · rintro ⟨M, st₁, Os, hop, hrest, rfl⟩
    exact ⟨M, st₁, hop, Os, st', hrest, rfl, rfl⟩

end

end Normal

/-! ## Normal forms are their own -/

namespace Numbering

variable (st : Numbering)

/-- The same numbers, under the names that a normal form uses. -/
def renamed : Numbering := { st with names := st.names.map fun p => (toString p.2, p.2) }

variable {st}

theorem lookup_toString {l : List (String × Nat)} {n : Nat} (hn : n ∈ l.map Prod.snd) :
    (l.map fun p => (toString p.2, p.2)).lookup (toString n) = some n := by
  induction l with
  | nil => cases hn
  | cons p l ih =>
    rw [List.map_cons, List.lookup_cons]
    by_cases heq : n = p.2
    · rw [heq, beq_self_eq_true]
    · rw [beq_eq_false_iff_ne.2 fun h => heq (Text.toString_injective h)]
      exact ih ((List.mem_cons.1 hn).resolve_left heq)

theorem resolve_renamed {name : String} {n : Nat} (h : st.resolve name = some n) :
    st.renamed.resolve (toString n) = some n :=
  lookup_toString (List.mem_map.2 ⟨(name, n), Position.mem_of_lookup h, rfl⟩)

theorem renamed_bind {names : List String} {numbers : List Nat}
    (hlength : names.length = numbers.length) :
    st.renamed.bind (numbers.map toString) numbers = (st.bind names numbers).renamed := by
  have hzip : (numbers.map toString).zip numbers =
      (names.zip numbers).map fun p => (toString p.2, p.2) := by
    induction names generalizing numbers with
    | nil => rw [List.length_eq_zero_iff.1 hlength.symm]; rfl
    | cons name names ih =>
      obtain ⟨n, numbers, rfl⟩ := List.exists_cons_of_length_eq_add_one hlength.symm
      rw [List.map_cons, List.zip_cons_cons, List.zip_cons_cons, List.map_cons,
        ih (Nat.succ.inj hlength)]
  rw [bind, bind, renamed, renamed, hzip]
  simp

@[simp] theorem length_fresh (count : Nat) : (st.fresh count).length = count := List.length_range'

end Numbering

namespace Normal

variable {st st' : Numbering}

theorem mapM_resolve_renamed {names : List String} {numbers : List Nat}
    (h : names.mapM st.resolve = some numbers) :
    (numbers.map toString).mapM st.renamed.resolve = some numbers := by
  induction names generalizing numbers with
  | nil =>
    rw [List.mapM_nil, Option.pure_def, Option.some.injEq] at h
    rw [← h]
    rfl
  | cons name names ih =>
    simp only [List.mapM_cons, Option.bind_eq_bind, Option.bind_eq_some_iff, Option.pure_def,
      Option.some.injEq] at h
    obtain ⟨n, hn, ns, hns, rfl⟩ := h
    rw [List.map_cons, List.mapM_cons, Numbering.resolve_renamed hn, ih hns]
    rfl

/-- The arguments of a normal form have the numbers as their names. -/
theorem args_label {bare : Bool} {args : List (String × TypeTerm)}
    (hbare : bare = true → args = []) (st : Numbering) (Os : List OpTerm) :
    (BlockTerm.mk (label bare args st) Os).args =
      ((st.fresh args.length).map toString).zip (types (args.map Prod.snd)) := by
  cases bare with
  | false => rfl
  | true =>
    rw [hbare rfl]
    rfl

theorem length_args_label {bare : Bool} {args : List (String × TypeTerm)}
    (hbare : bare = true → args = []) (st : Numbering) (Os : List OpTerm) :
    (BlockTerm.mk (label bare args st) Os).args.length = args.length := by
  rw [args_label hbare, types_eq_map]
  simp

theorem map_fst_args_label {bare : Bool} {args : List (String × TypeTerm)}
    (hbare : bare = true → args = []) (st : Numbering) (Os : List OpTerm) :
    (BlockTerm.mk (label bare args st) Os).args.map Prod.fst =
      (st.fresh args.length).map toString := by
  rw [args_label hbare, types_eq_map, List.map_fst_zip]
  simp

theorem map_snd_args_label {bare : Bool} {args : List (String × TypeTerm)}
    (hbare : bare = true → args = []) (st : Numbering) (Os : List OpTerm) :
    (BlockTerm.mk (label bare args st) Os).args.map Prod.snd = types (args.map Prod.snd) := by
  rw [args_label hbare, types_eq_map, List.map_snd_zip]
  simp

theorem label_label {bare : Bool} {args : List (String × TypeTerm)}
    (hbare : bare = true → args = []) (Os : List OpTerm) :
    label bare (BlockTerm.mk (label bare args st) Os).args st.renamed = label bare args st := by
  conv_lhs => rw [label, length_args_label hbare, map_snd_args_label hbare, types_types]
  rfl

theorem enter_label {bare : Bool} {args : List (String × TypeTerm)}
    (hbare : bare = true → args = []) (Os : List OpTerm) :
    enter bare (BlockTerm.mk (label bare args st) Os).args st.renamed =
      (enter bare args st).renamed := by
  have hbind : ((st.renamed.skip args.length).bind ((st.fresh args.length).map toString)
      (st.fresh args.length)) =
        ((st.skip args.length).bind (args.map Prod.fst) (st.fresh args.length)).renamed :=
    (st.skip args.length).renamed_bind (by simp)
  rw [enter, length_args_label hbare, map_fst_args_label hbare]
  change (if bare = true then ((st.renamed.skip args.length).bind ((st.fresh args.length).map toString)
      (st.fresh args.length)) else ((st.renamed.skip args.length).bind
        ((st.fresh args.length).map toString) (st.fresh args.length)).nextLabel) = _
  rw [hbind, enter]
  cases bare <;> rfl

/-- A block that goes without a label has no arguments. -/
theorem args_eq_nil_of_isBare {terms : List BlockTerm} (h : isBare terms = true) :
    ∀ term ∈ terms, term.args = [] := by
  rw [isBare, decide_eq_true_eq] at h
  intro term hterm
  rw [← List.length_eq_zero_iff]
  have hmem : term.args.length ∈ terms.map (·.args.length) := List.mem_map_of_mem hterm
  rw [h, List.mem_singleton] at hmem
  exact hmem

/-- A normal form has as many arguments as what it is the normal form of. -/
theorem length_args_blocks {bare : Bool} {terms Ms : List BlockTerm}
    (hbare : bare = true → ∀ term ∈ terms, term.args = [])
    (h : blocks bare terms st = some (Ms, st')) :
    Ms.map (·.args.length) = terms.map (·.args.length) := by
  induction terms generalizing st Ms with
  | nil =>
    obtain ⟨rfl, -⟩ := blocks_nil_eq_some.1 h
    rfl
  | cons term terms ih =>
    obtain ⟨l, ts⟩ := term
    obtain ⟨Os, st₁, Bs, -, hrest, rfl⟩ := blocks_cons_eq_some.1 h
    rw [List.map_cons, List.map_cons,
      length_args_label fun hb => hbare hb _ List.mem_cons_self,
      ih (fun hb t ht => hbare hb t (List.mem_cons_of_mem _ ht)) hrest]

mutual

/-- A normal form is its own normal form. -/
theorem op_normal : ∀ (term M : OpTerm) (st st' : Numbering),
    op term st = some (M, st') → op M st.renamed = some (M, st'.renamed)
  | .mk h terms, M, st, st', hop => by
    obtain ⟨hlength, operands, Ms, st₁, hoperands, hregions, rfl, rfl⟩ := op_eq_some.1 hop
    have hresults : (head (st.fresh h.results.length) operands h).results.length =
        h.results.length := by simp [head]
    have hhead : head (st.fresh h.results.length) operands
        (head (st.fresh h.results.length) operands h) =
          head (st.fresh h.results.length) operands h := by
      conv_lhs => rw [head, headEntries_head]
      simp [head, types_types]
    refine op_eq_some.2 ⟨?_, operands, Ms, st₁.renamed, mapM_resolve_renamed hoperands, ?_, ?_, ?_⟩
    · rw [hresults, hlength, head, types_eq_map, List.length_map]
    · rw [hresults]
      exact regions_normal terms Ms (st.skip h.results.length) st₁ hregions
    · rw [hresults]
      exact congrArg (OpTerm.mk · Ms) hhead.symm
    · rw [hresults]
      exact (Numbering.renamed_bind (by simp)).symm

theorem regions_normal : ∀ (terms Ms : List RegionTerm) (st st' : Numbering),
    regions terms st = some (Ms, st') → regions Ms st.renamed = some (Ms, st'.renamed)
  | [], Ms, st, st', hrun => by
    obtain ⟨rfl, rfl⟩ := regions_nil_eq_some.1 hrun
    rfl
  | .mk terms :: rest, Ms, st, st', hrun => by
    obtain ⟨Bs, st₁, Rs, hblocks, hrest, rfl⟩ := regions_cons_eq_some.1 hrun
    have hbare : isBare Bs = isBare terms := by
      rw [isBare, isBare, length_args_blocks args_eq_nil_of_isBare hblocks]
    refine regions_cons_eq_some.2 ⟨Bs, st₁.renamed, Rs, ?_,
      regions_normal rest Rs st₁ st' hrest, rfl⟩
    rw [hbare]
    exact blocks_normal _ terms Bs st st₁ args_eq_nil_of_isBare hblocks

theorem blocks_normal : ∀ (bare : Bool) (terms Ms : List BlockTerm) (st st' : Numbering),
    (bare = true → ∀ term ∈ terms, term.args = []) → blocks bare terms st = some (Ms, st') →
      blocks bare Ms st.renamed = some (Ms, st'.renamed)
  | bare, [], Ms, st, st', _, hrun => by
    obtain ⟨rfl, rfl⟩ := blocks_nil_eq_some.1 hrun
    rfl
  | bare, .mk l terms :: rest, Ms, st, st', hbare, hrun => by
    obtain ⟨Os, st₁, Bs, hops, hrest, rfl⟩ := blocks_cons_eq_some.1 hrun
    have hargs : bare = true → (BlockTerm.mk l terms).args = [] := fun hb =>
      hbare hb _ List.mem_cons_self
    refine blocks_cons_eq_some.2 ⟨Os, st₁.renamed, Bs, ?_, ?_, ?_⟩
    · rw [enter_label hargs]
      exact ops_normal terms Os _ st₁ hops
    · exact blocks_normal bare rest Bs st₁ st'
        (fun hb t ht => hbare hb t (List.mem_cons_of_mem _ ht)) hrest
    · rw [label_label hargs]

theorem ops_normal : ∀ (terms Ms : List OpTerm) (st st' : Numbering),
    ops terms st = some (Ms, st') → ops Ms st.renamed = some (Ms, st'.renamed)
  | [], Ms, st, st', hrun => by
    obtain ⟨rfl, rfl⟩ := ops_nil_eq_some.1 hrun
    rfl
  | term :: rest, Ms, st, st', hrun => by
    obtain ⟨M, st₁, Os, hop, hrest, rfl⟩ := ops_cons_eq_some.1 hrun
    exact ops_cons_eq_some.2 ⟨M, st₁.renamed, Os, op_normal term M st st₁ hop,
      ops_normal rest Os st₁ st' hrest, rfl⟩

end

end Normal

/-! ## Places in a text -/

namespace Unplaced

mutual

/-- What a term says apart from the places in its text. -/
def op : OpTerm → OpTerm
  | .mk h terms => .mk { h with span := ⟨0, 0⟩ } (regions terms)

def regions : List RegionTerm → List RegionTerm
  | [] => []
  | .mk blockTerms :: rest => .mk (blocks blockTerms) :: regions rest

def blocks : List BlockTerm → List BlockTerm
  | [] => []
  | .mk l terms :: rest => .mk l (ops terms) :: blocks rest

def ops : List OpTerm → List OpTerm
  | [] => []
  | term :: rest => op term :: ops rest

end

theorem length_args_blocks (terms : List BlockTerm) :
    (blocks terms).map (·.args.length) = terms.map (·.args.length) := by
  induction terms with
  | nil => rfl
  | cons term rest ih =>
    obtain ⟨l, terms⟩ := term
    rw [blocks, List.map_cons, List.map_cons, ih]
    rfl

end Unplaced

namespace Normal

mutual

/-- The normal form does not depend on places. -/
theorem op_unplaced : ∀ term, op (Unplaced.op term) = op term
  | .mk h terms => by
    funext st
    rw [Unplaced.op, op, op, regions_unplaced terms]
    rfl

theorem regions_unplaced : ∀ terms, regions (Unplaced.regions terms) = regions terms
  | [] => rfl
  | .mk terms :: rest => by
    funext st
    rw [Unplaced.regions, regions, regions, regions_unplaced rest, isBare,
      Unplaced.length_args_blocks, blocks_unplaced _ terms]
    rfl

theorem blocks_unplaced : ∀ bare terms, blocks bare (Unplaced.blocks terms) = blocks bare terms
  | bare, [] => rfl
  | bare, .mk l terms :: rest => by
    funext st
    rw [Unplaced.blocks, blocks, blocks, ops_unplaced terms, blocks_unplaced bare rest]
    rfl

theorem ops_unplaced : ∀ terms, ops (Unplaced.ops terms) = ops terms
  | [] => rfl
  | term :: rest => by
    funext st
    rw [Unplaced.ops, ops, ops, op_unplaced term, ops_unplaced rest]

end

end Normal

namespace Source

mutual

/-- The text of a term does not depend on the places that it names. -/
theorem opText_unplaced : ∀ column term, opText column (Unplaced.op term) = opText column term
  | column, .mk h terms => by
    rw [Unplaced.op, opText, opText, regionTexts_unplaced column terms]
    rfl

theorem regionTexts_unplaced : ∀ column terms,
    regionTexts column (Unplaced.regions terms) = regionTexts column terms
  | column, [] => rfl
  | column, .mk terms :: rest => by
    rw [Unplaced.regions, regionTexts, regionTexts, blockTexts_unplaced column terms,
      regionTexts_unplaced column rest]

theorem blockTexts_unplaced : ∀ column terms,
    blockTexts column (Unplaced.blocks terms) = blockTexts column terms
  | column, [] => rfl
  | column, .mk none terms :: rest => by
    rw [Unplaced.blocks, blockTexts, blockTexts, opTexts_unplaced (column + 2) terms,
      blockTexts_unplaced column rest]
  | column, .mk (some _) terms :: rest => by
    rw [Unplaced.blocks, blockTexts, blockTexts, opTexts_unplaced (column + 4) terms,
      blockTexts_unplaced column rest]

theorem opTexts_unplaced : ∀ column terms,
    opTexts column (Unplaced.ops terms) = opTexts column terms
  | column, [] => rfl
  | column, term :: rest => by
    rw [Unplaced.ops, opTexts, opTexts, opText_unplaced column term, opTexts_unplaced column rest]

end

end Source

end Offload
