import Offload.Proofs.Source.Build
import Offload.Proofs.Source.Normal
import Offload.Source.Quote

/-!
# Types and attributes, built and quoted

Building a type shares it with equal types, and quoting spells it out again. What
comes back is the normal form of the term that was built, in the context where it was
built (`type_spec`) and in every later one, since types and paths keep their handles
(`Remembers`).

Quoting goes down as far as the types are nested, and no further than there are types.
That suffices where every type can be spelled out within its own number (`Founded`).
-/

namespace Offload

namespace Context

/-- All types and paths keep their handles. -/
structure Remembers (ctx ctx' : Context) : Prop where
  type : ∀ t node, ctx.type t = .ok node → ctx'.type t = .ok node
  path : ∀ p text, ctx.path p = .ok text → ctx'.path p = .ok text

/-- Every type can be spelled out within its number. -/
def Founded (ctx : Context) : Prop :=
  ∀ i < ctx.types.size, ∃ term, Quote.typeWithin ctx (i + 1) ⟨i⟩ = .ok term

variable {ctx ctx₁ ctx₂ ctx' : Context}

namespace Remembers

theorem refl (ctx : Context) : Remembers ctx ctx := ⟨fun _ _ h => h, fun _ _ h => h⟩

theorem trans (h₁ : Remembers ctx ctx₁) (h₂ : Remembers ctx₁ ctx₂) : Remembers ctx ctx₂ :=
  ⟨fun t node h => h₂.type t node (h₁.type t node h),
    fun p text h => h₂.path p text (h₁.path p text h)⟩

end Remembers

theorem founded_empty : empty.Founded := fun _ hi => absurd hi (Nat.not_lt_zero _)

end Context

open Context

/-! ## Quoting in later contexts -/

namespace Quote

variable {ctx ctx' : Context} {f f' : TypeRef → Except Fault TypeTerm}

mutual

theorem value_mono (hctx : ctx.Remembers ctx')
    (htype : ∀ t term, f t = .ok term → f' t = .ok term) :
    ∀ (a : Attribute) (term : AttributeTerm), value ctx f a = .ok term →
      value ctx' f' a = .ok term
  | .atom .unit, term, h => by rwa [value] at h ⊢
  | .atom (.bool _), term, h => by rwa [value] at h ⊢
  | .atom (.int _), term, h => by rwa [value] at h ⊢
  | .atom (.float _), term, h => by rwa [value] at h ⊢
  | .atom (.string _), term, h => by rwa [value] at h ⊢
  | .atom (.bytes _), term, h => by rwa [value] at h ⊢
  | .atom (.symbol _), term, h => by rwa [value] at h ⊢
  | .atom (.type t), term, h => by
    rw [value] at h ⊢
    obtain ⟨tt, ht, h⟩ := Outcome.bind_eq_ok.1 h
    rwa [htype t tt ht]
  | .atom (.location l), term, h => by
    rw [value] at h ⊢
    obtain ⟨path, hpath, h⟩ := Outcome.bind_eq_ok.1 h
    rwa [hctx.path _ _ hpath]
  | .list items, term, h => by
    rw [value] at h ⊢
    obtain ⟨terms, hterms, h⟩ := Outcome.bind_eq_ok.1 h
    rwa [values_mono hctx htype items terms hterms]

theorem values_mono (hctx : ctx.Remembers ctx')
    (htype : ∀ t term, f t = .ok term → f' t = .ok term) :
    ∀ (as : List Attribute) (terms : List AttributeTerm), values ctx f as = .ok terms →
      values ctx' f' as = .ok terms
  | [], terms, h => by rwa [values] at h ⊢
  | a :: as, terms, h => by
    rw [values] at h ⊢
    obtain ⟨term, hterm, h⟩ := Outcome.bind_eq_ok.1 h
    obtain ⟨rest, hrest, h⟩ := Outcome.bind_eq_ok.1 h
    rw [value_mono hctx htype a term hterm, Outcome.ok_bind, values_mono hctx htype as rest hrest]
    exact h

end

theorem entries_mono (hctx : ctx.Remembers ctx')
    (htype : ∀ t term, f t = .ok term → f' t = .ok term) {as : List (String × Attribute)}
    {es : List Entry} (h : entries ctx f as = .ok es) : entries ctx' f' as = .ok es := by
  refine Outcome.mapM_eq_ok.2 ((Outcome.mapM_eq_ok.1 h).imp fun p e hp => ?_)
  obtain ⟨key, a⟩ := p
  obtain ⟨term, ha, he⟩ := Outcome.bind_eq_ok.1 hp
  dsimp only
  rw [value_mono hctx htype _ _ ha]
  exact he

theorem typeWithin_mono (hctx : ctx.Remembers ctx') {n n' : Nat} (hn : n ≤ n') {t : TypeRef}
    {term : TypeTerm} (h : typeWithin ctx n t = .ok term) : typeWithin ctx' n' t = .ok term := by
  induction n generalizing n' t term with
  | zero => cases h
  | succ n ih =>
    obtain ⟨n', rfl⟩ := Nat.exists_eq_add_one.2 (Nat.zero_lt_of_lt hn)
    have hmono (t : TypeRef) (term : TypeTerm) :
        typeWithin ctx n t = .ok term → typeWithin ctx' n' t = .ok term :=
      ih (Nat.le_of_succ_le_succ hn)
    rw [typeWithin_succ] at h ⊢
    obtain ⟨node, hnode, h⟩ := Outcome.bind_eq_ok.1 h
    obtain ⟨params, hparams, h⟩ := Outcome.bind_eq_ok.1 h
    obtain ⟨es, hes, h⟩ := Outcome.bind_eq_ok.1 h
    have hparams' : node.params.mapM (typeWithin ctx' n') = .ok params :=
      Outcome.mapM_eq_ok.2 ((Outcome.mapM_eq_ok.1 hparams).imp hmono)
    rw [hctx.type t node hnode, Outcome.ok_bind, hparams', Outcome.ok_bind,
      entries_mono hctx hmono hes]
    exact h

theorem lt_size_of_typeWithin {n : Nat} {t : TypeRef} {term : TypeTerm}
    (h : typeWithin ctx n t = .ok term) : t.index < ctx.types.size := by
  cases n with
  | zero => cases h
  | succ n =>
    rw [typeWithin] at h
    obtain ⟨node, hnode, -⟩ := Outcome.bind_eq_ok.1 h
    exact (Array.getElem?_eq_some_iff.1 (type_eq_ok.1 hnode)).1

/-- The term of a type, within its number. -/
def Says (ctx : Context) (t : TypeRef) (term : TypeTerm) : Prop :=
  typeWithin ctx (t.index + 1) t = .ok term

theorem Says.mono {t : TypeRef} {term : TypeTerm} (h : Says ctx t term)
    (hctx : ctx.Remembers ctx') : Says ctx' t term := typeWithin_mono hctx le_rfl h

theorem Says.within {t : TypeRef} {term : TypeTerm} (h : Says ctx t term)
    (hctx : ctx.Remembers ctx') {n : Nat} (hn : ctx.types.size ≤ n) :
    typeWithin ctx' n t = .ok term :=
  typeWithin_mono hctx ((lt_size_of_typeWithin h).trans_le hn) h

theorem Says.type {t : TypeRef} {term : TypeTerm} (h : Says ctx t term)
    (hctx : ctx.Remembers ctx') : Quote.type ctx' t = .ok term :=
  (h.mono hctx).within (.refl _) (Nat.le_succ _)

/-- To set an attribute puts its term among the terms of the others. -/
theorem entries_set {as : Attributes} {es : List Entry} {a : Attribute}
    {term : AttributeTerm} (hes : entries ctx f as.entries = .ok es) (key : String)
    (ha : value ctx f a = .ok term) :
    entries ctx f (as.set key a).entries = .ok (Entry.put key term es) := by
  have hentry (key : String) {a : Attribute} {term : AttributeTerm}
      (ha : value ctx f a = .ok term) :
      (do return .mk key (← value ctx f a) : Except Fault Entry) = .ok (.mk key term) := by
    rw [ha]
    rfl
  rw [entries, Outcome.mapM_eq_ok] at hes ⊢
  obtain ⟨l, hl⟩ := as
  dsimp only [SortedMap.set] at hes ⊢
  clear hl
  induction hes with
  | nil => exact .cons (hentry key ha) .nil
  | @cons p e l es hp hrest ih =>
    obtain ⟨k, b⟩ := p
    obtain ⟨bt, hb, he⟩ := Outcome.bind_eq_ok.1 hp
    obtain rfl := Outcome.pure_eq_ok.1 he
    rw [SortedMap.setEntry, Entry.put]
    split
    · exact .cons (hentry key ha) (.cons hp hrest)
    split
    · exact .cons (hentry key ha) hrest
    · exact .cons hp ih

end Quote

/-! ## Building types and attributes -/

namespace Build

variable {ctx ctx' : Context}

/-- What building adds to the types and paths of a context. -/
structure Enriched (ctx ctx' : Context) : Prop where
  remembers : ctx.Remembers ctx'
  founded : ctx.Founded → ctx'.Founded

namespace Enriched

variable {ctx₁ ctx₂ : Context}

theorem refl (ctx : Context) : Enriched ctx ctx := ⟨.refl ctx, id⟩

theorem trans (h₁ : Enriched ctx ctx₁) (h₂ : Enriched ctx₁ ctx₂) : Enriched ctx ctx₂ :=
  ⟨h₁.remembers.trans h₂.remembers, h₂.founded ∘ h₁.founded⟩

/-- Changes to programs leave the types and paths alone. -/
theorem of_eq (htypes : ctx'.types = ctx.types) (hpaths : ctx'.paths = ctx.paths) :
    Enriched ctx ctx' := by
  have hremembers : ctx.Remembers ctx' := by
    refine ⟨fun t node h => ?_, fun p text h => ?_⟩
    · rwa [type_eq_ok, htypes, ← type_eq_ok]
    · rwa [path_eq_ok, hpaths, ← path_eq_ok]
  refine ⟨hremembers, fun hfounded i hi => ?_⟩
  rw [htypes] at hi
  obtain ⟨term, hterm⟩ := hfounded i hi
  exact ⟨term, Quote.typeWithin_mono hremembers le_rfl hterm⟩

end Enriched

theorem enriched_symbols (ctx : Context) (names : List String) :
    Enriched ctx ((symbols names).run ctx).2 := .of_eq rfl rfl

theorem enriched_internPath (ctx : Context) (path : String) :
    Enriched ctx (ctx.internPath path).1 ∧
      (ctx.internPath path).1.path (ctx.internPath path).2 = .ok path := by
  rw [internPath]
  rcases ctx.paths.intern_cases path with ⟨i, heq, hi⟩ | ⟨⟨paths, heq, hrows⟩, -⟩
  · rw [heq]
    exact ⟨.refl ctx, path_eq_ok.2 hi⟩
  · rw [heq]
    have hremembers : ctx.Remembers { ctx with paths } := by
      refine ⟨fun _ _ h => h, fun p text h => ?_⟩
      have h' := Array.getElem?_eq_some_iff.1 (path_eq_ok.1 h)
      rw [path_eq_ok, hrows, Array.getElem?_push_lt h'.1, h'.2]
    refine ⟨⟨hremembers, fun hfounded i hi => ?_⟩, path_eq_ok.2 ?_⟩
    · obtain ⟨term, hterm⟩ := hfounded i hi
      exact ⟨term, Quote.typeWithin_mono hremembers le_rfl hterm⟩
    · rw [hrows, Array.getElem?_push_size]

/-- A type is shared with an equal one, or comes after all the types that it is made of. -/
theorem internType_spec (node : TypeNode) {params : List TypeTerm} {es : List Entry}
    (hfounded : ctx.Founded)
    (hparams : node.params.mapM (Quote.typeWithin ctx ctx.types.size) = .ok params)
    (hes : Quote.entries ctx (Quote.typeWithin ctx ctx.types.size) node.attributes.entries =
      .ok es) :
    Enriched ctx (ctx.internType node).1 ∧ Quote.Says (ctx.internType node).1
      (ctx.internType node).2 (.mk node.dialect node.name params es) := by
  have hquote {ctx' : Context} (hctx : ctx.Remembers ctx') {t : TypeRef}
      (ht : ctx'.type t = .ok node) : Quote.typeWithin ctx' (ctx.types.size + 1) t =
        .ok (.mk node.dialect node.name params es) := by
    have hmono (t : TypeRef) (term : TypeTerm) : Quote.typeWithin ctx ctx.types.size t = .ok term →
        Quote.typeWithin ctx' ctx.types.size t = .ok term := Quote.typeWithin_mono hctx le_rfl
    have hparams' : node.params.mapM (Quote.typeWithin ctx' ctx.types.size) = .ok params :=
      Outcome.mapM_eq_ok.2 ((Outcome.mapM_eq_ok.1 hparams).imp hmono)
    rw [Quote.typeWithin_succ, ht, Outcome.ok_bind, hparams', Outcome.ok_bind,
      Quote.entries_mono hctx hmono hes]
    rfl
  rw [internType]
  rcases ctx.types.intern_cases node with ⟨i, heq, hi⟩ | ⟨⟨types, heq, hrows⟩, -⟩
  · rw [heq]
    have hlt : i < ctx.types.size := (Array.getElem?_eq_some_iff.1 hi).1
    obtain ⟨term, hterm⟩ := hfounded i hlt
    have hsize := (Quote.typeWithin_mono (.refl ctx) (by omega) hterm).symm.trans
      (hquote (.refl ctx) (type_eq_ok.2 hi))
    cases hsize
    exact ⟨.refl ctx, hterm⟩
  · rw [heq]
    have hremembers : ctx.Remembers { ctx with types } := by
      refine ⟨fun t row h => ?_, fun _ _ h => h⟩
      have h' := Array.getElem?_eq_some_iff.1 (type_eq_ok.1 h)
      rw [type_eq_ok, hrows, Array.getElem?_push_lt h'.1, h'.2]
    have hlast := hquote hremembers (t := ⟨ctx.types.size⟩)
      (type_eq_ok.2 (hrows ▸ Array.getElem?_push_size))
    refine ⟨⟨hremembers, fun _ i hi => ?_⟩, hlast⟩
    change i < types.rows.size at hi
    rw [hrows, Array.size_push] at hi
    rcases Nat.lt_or_eq_of_le (Nat.le_of_lt_succ hi) with hlt | rfl
    · obtain ⟨term, hterm⟩ := hfounded i hlt
      exact ⟨term, Quote.typeWithin_mono hremembers le_rfl hterm⟩
    · exact ⟨_, hlast⟩

/-- The terms of attributes, in a context where all their types can be spelled out. -/
abbrev quotedValue (ctx : Context) : Attribute → Except Fault AttributeTerm :=
  Quote.value ctx (Quote.typeWithin ctx ctx.types.size)

abbrev quotedEntries (ctx : Context) : List (String × Attribute) → Except Fault (List Entry) :=
  Quote.entries ctx (Quote.typeWithin ctx ctx.types.size)

theorem typeWithin_later (h : ctx.Remembers ctx') (t : TypeRef) (term : TypeTerm)
    (ht : Quote.typeWithin ctx ctx.types.size t = .ok term) :
    Quote.typeWithin ctx' ctx'.types.size t = .ok term := by
  refine Quote.typeWithin_mono h ?_ ht
  by_contra hlt
  obtain ⟨node, hnode⟩ : ∃ node, ctx.types.rows[ctx'.types.size]? = some node :=
    ⟨_, Array.getElem?_eq_getElem (Nat.lt_of_not_le hlt)⟩
  have hnode' := type_eq_ok.1 (h.type ⟨ctx'.types.size⟩ node (type_eq_ok.2 hnode))
  exact Nat.lt_irrefl _ (Array.getElem?_eq_some_iff.1 hnode').1

theorem type_later (h : ctx.Remembers ctx') (t : TypeRef) (term : TypeTerm)
    (ht : Quote.typeWithin ctx ctx.types.size t = .ok term) : Quote.type ctx' t = .ok term :=
  Quote.typeWithin_mono (.refl ctx') (Nat.le_succ _) (typeWithin_later h t term ht)

mutual

theorem type_spec : ∀ (t : TypeTerm) (ctx : Context), ctx.Founded →
    Enriched ctx ((type t).run ctx).2 ∧
      Quote.Says ((type t).run ctx).2 ((type t).run ctx).1 (Normal.type t)
  | .mk dialect name params es, ctx, hctx => by
    let ctx₁ := ((symbols [dialect, name]).run ((types params).run ctx).2).2
    obtain ⟨h, hparams'⟩ := types_spec params ctx hctx
    have hnamed : Enriched ((types params).run ctx).2 ctx₁ := enriched_symbols _ _
    have h₁ : Enriched ctx ctx₁ := h.trans hnamed
    have hparams := hparams'.imp fun t term ht => ht.mono hnamed.remembers
    obtain ⟨h₂, hes⟩ := attributes_spec es .empty [] ctx₁ (h₁.founded hctx) rfl
    obtain ⟨h₃, hsays⟩ := internType_spec
      (⟨dialect, name, ((types params).run ctx).1, ((attributes es .empty).run ctx₁).1⟩)
      (h₂.founded (h₁.founded hctx))
      (Outcome.mapM_eq_ok.2 (hparams.imp fun t term ht =>
        typeWithin_later h₂.remembers t term (ht.within (.refl _) le_rfl))) hes
    rw [type]
    exact ⟨(h₁.trans h₂).trans h₃, hsays⟩

theorem types_spec : ∀ (ts : List TypeTerm) (ctx : Context), ctx.Founded →
    Enriched ctx ((types ts).run ctx).2 ∧
      List.Forall₂ (Quote.Says ((types ts).run ctx).2) ((types ts).run ctx).1 (Normal.types ts)
  | [], ctx, hctx => ⟨.refl ctx, .nil⟩
  | t :: ts, ctx, hctx => by
    obtain ⟨h₁, ht⟩ := type_spec t ctx hctx
    obtain ⟨h₂, hts⟩ := types_spec ts _ (h₁.founded hctx)
    rw [types]
    exact ⟨h₁.trans h₂, .cons (ht.mono h₂.remembers) hts⟩

theorem value_spec : ∀ (a : AttributeTerm) (ctx : Context), ctx.Founded →
    Enriched ctx ((value a).run ctx).2 ∧
      quotedValue ((value a).run ctx).2 ((value a).run ctx).1 = .ok (Normal.value a)
  | .unit, ctx, hctx => by rw [value]; exact ⟨.refl ctx, rfl⟩
  | .bool _, ctx, hctx => by rw [value]; exact ⟨.refl ctx, rfl⟩
  | .int _, ctx, hctx => by rw [value]; exact ⟨.refl ctx, rfl⟩
  | .float _, ctx, hctx => by rw [value]; exact ⟨.refl ctx, rfl⟩
  | .string _, ctx, hctx => by rw [value]; exact ⟨.refl ctx, rfl⟩
  | .bytes _, ctx, hctx => by rw [value]; exact ⟨.refl ctx, rfl⟩
  | .symbol name, ctx, hctx => by rw [value]; exact ⟨enriched_symbols ctx [name], rfl⟩
  | .type t, ctx, hctx => by
    obtain ⟨h, ht⟩ := type_spec t ctx hctx
    have hrun : (value (.type t)).run ctx =
        (.atom (.type ((type t).run ctx).1), ((type t).run ctx).2) := by rw [value]; rfl
    rw [hrun, quotedValue, Quote.value, ht.within (.refl _) le_rfl, Normal.value]
    exact ⟨h, rfl⟩
  | .location path span, ctx, hctx => by
    obtain ⟨h, hpath⟩ := enriched_internPath ctx path
    have hrun : (value (.location path span)).run ctx =
        (.atom (.location ⟨(ctx.internPath path).2, span⟩), (ctx.internPath path).1) := by
      rw [value]; rfl
    rw [hrun, quotedValue, Quote.value, hpath, Normal.value]
    exact ⟨h, rfl⟩
  | .list items, ctx, hctx => by
    obtain ⟨h, hitems⟩ := values_spec items ctx hctx
    have hrun : (value (.list items)).run ctx =
        (.list ((values items).run ctx).1, ((values items).run ctx).2) := by rw [value]; rfl
    rw [hrun, quotedValue, Quote.value, hitems, Normal.value]
    exact ⟨h, rfl⟩

theorem values_spec : ∀ (as : List AttributeTerm) (ctx : Context), ctx.Founded →
    Enriched ctx ((values as).run ctx).2 ∧ Quote.values ((values as).run ctx).2
      (Quote.typeWithin ((values as).run ctx).2 ((values as).run ctx).2.types.size)
      ((values as).run ctx).1 = .ok (Normal.values as)
  | [], ctx, hctx => ⟨.refl ctx, rfl⟩
  | a :: as, ctx, hctx => by
    obtain ⟨h₁, ha⟩ := value_spec a ctx hctx
    obtain ⟨h₂, has⟩ := values_spec as _ (h₁.founded hctx)
    have hrun : (values (a :: as)).run ctx =
        (((value a).run ctx).1 :: ((values as).run ((value a).run ctx).2).1,
          ((values as).run ((value a).run ctx).2).2) := by rw [values]; rfl
    have ha' := Quote.value_mono h₂.remembers (typeWithin_later h₂.remembers) _ _ ha
    rw [hrun, Quote.values, ha', Outcome.ok_bind, has, Normal.values]
    exact ⟨h₁.trans h₂, rfl⟩

theorem attributes_spec : ∀ (es : List Entry) (as : Attributes) (acc : List Entry)
    (ctx : Context), ctx.Founded → quotedEntries ctx as.entries = .ok acc →
    Enriched ctx ((attributes es as).run ctx).2 ∧
      quotedEntries ((attributes es as).run ctx).2 ((attributes es as).run ctx).1.entries =
        .ok (Normal.entries es acc)
  | [], as, acc, ctx, hctx, has => ⟨.refl ctx, has⟩
  | .mk key a :: rest, as, acc, ctx, hctx, has => by
    let ctx₁ := ((symbols [key]).run ((value a).run ctx).2).2
    obtain ⟨h, ha⟩ := value_spec a ctx hctx
    have hkey : Enriched ((value a).run ctx).2 ctx₁ := enriched_symbols _ _
    have h₁ : Enriched ctx ctx₁ := h.trans hkey
    have has' := Quote.entries_set
      (Quote.entries_mono h₁.remembers (typeWithin_later h₁.remembers) has) key
      (Quote.value_mono hkey.remembers (typeWithin_later hkey.remembers) _ _ ha)
    obtain ⟨h₂, hrest⟩ := attributes_spec rest _ _ ctx₁ (h₁.founded hctx) has'
    rw [attributes]
    exact ⟨h₁.trans h₂, hrest⟩

end

end Build

end Offload
