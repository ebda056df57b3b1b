import Offload.Proofs.Source.CutRegion

/-!
# Reading a part: operations

An operation that was read in a text is read the same off its own part of the text, but for the
places, which move with the start of the part (`cut_operation`). It depends on what follows: it has
to be another operation, the end of the block, or nothing (`OpStops`).

The parts of a line have marks of their own, and where one is missing, its mark is not there. Only
the brace of attributes is also that of a region. Then it is the region that shows that there were
no attributes, for it does not go on with a key and an equals sign (`lineStops_of_regions`): the
operation that it starts with could not be read.
-/

namespace Offload

open Text Text.Reader Source

namespace Source

variable {α β : Type} {r s t u : List Char} {m n l k : Nat} {P Q : List Char → Prop}

/-! ## The line of an operation -/

/-- After blanks, none of some characters follows. -/
def Avoids (l : List Char) (s : List Char) : Prop := ∀ c ∈ l, (skip s).head? ≠ some c

theorem Avoids.mono {l l' : List Char} (h : Avoids l s) (hl : ∀ c ∈ l', c ∈ l) : Avoids l' s :=
  fun c hc => h c (hl c hc)

theorem avoids_of_head {l : List Char} {c : Char} (hs : (skip s).head? = some c) (hc : c ∉ l) :
    Avoids l s := fun _ hd hs' => hc (Option.some.inj (hs.symm.trans hs') ▸ hd)

theorem Avoids.front {l : List Char} (h : Avoids l (s ++ r)) : Avoids l s :=
  fun c hc hs => h c hc (head?_dropWhile_append hs)

theorem avoids_skip {l : List Char} : Avoids l (skip s) ↔ Avoids l s := by
  rw [Avoids, skip_skip, Avoids]

theorem Avoids.head?_ne {l : List Char} {c : Char} (h : Avoids l s) (hc : c ∈ l)
    (hblank : isBlank c = false) : s.head? ≠ some c := fun hs =>
  h c hc (by rw [skip_of_leaves (leaves_of_head hs hblank), hs])

theorem entriesHead_skip (s : List Char) : entriesHead (skip s) = entriesHead s := by
  rw [entriesHead, bind_done (blanks_apply _), bind_done (blanks_apply _), skip_skip]

/-- What may follow the types of a line. -/
structure LineStops (s : List Char) : Prop where
  avoids : Avoids [',', '(', ':', '@'] s
  entries : Stuck entriesHead s

/-- What may follow the attributes of a line. -/
structure EntriesStop (s : List Char) : Prop where
  avoids : Avoids [',', '@'] s
  entries : Stuck entriesHead s

theorem lineStops_skip : LineStops (skip s) ↔ LineStops s := by
  have hentries : Stuck entriesHead (skip s) ↔ Stuck entriesHead s := by
    rw [Stuck, entriesHead_skip, Stuck]
  exact ⟨fun h => ⟨avoids_skip.1 h.avoids, hentries.1 h.entries⟩,
    fun h => ⟨avoids_skip.2 h.avoids, hentries.2 h.entries⟩⟩

theorem LineStops.typeStops (h : LineStops s) : TypeStops s :=
  ⟨h.avoids.head?_ne (by decide) (by decide), h.entries⟩

theorem typeStops_of_comma (h : (skip s).head? = some ',') : TypeStops s := by
  refine ⟨fun hopen => ?_, stuck_entriesHead (by rw [h]; decide)⟩
  rw [skip_of_leaves (leaves_of_head hopen (by decide)), hopen] at h
  exact absurd h (by decide)

theorem cut_blanked {item item' : Reader α} (h : Cut r m l (fun u => P (skip u)) Eq item item') :
    Cut r m l P Eq (blanked item) (blanked item') := by
  refine cut_blanks.andThen fun _ => h.bind (fun a => cut_blanks.andThen fun _ => .pure rfl) ?_
  intro a u b t _ h ht
  obtain ⟨_, _, hblanks, hpure⟩ := bind_eq_done.1 h
  cases hblanks
  obtain ⟨-, rfl⟩ := pure_eq_done.1 hpure
  exact ht

/-- Types after a colon, or none. -/
theorem cut_types {ty ty' : Reader TypeTerm} (hty : Cut r m l TypeStops Eq ty ty') :
    Cut r m l LineStops Eq (optional (resultTypes ty)) (optional (resultTypes ty')) := by
  have hitem : Cut r m l (fun u => u.head? = some ',' ∨ LineStops u) Eq (blanked ty)
      (blanked ty') :=
    cut_blanked (hty.mono fun u h => h.elim typeStops_of_comma
      fun h => (lineStops_skip.1 h).typeStops)
  refine .optional ((cut_blanked (Cut.char ':')).andThen fun _ =>
    .separated1 hitem (fun u => .inl rfl) (fun u => .inr) fun u h => ?_) fun s _ hs _ => ?_
  · exact h.avoids.head?_ne (c := ',') (by decide) (by decide) rfl
  · have hcolon : Stuck (char ':') (skip s) := stuck_char (hs.avoids.front ':' (by decide))
    exact (stuck_bind (blanks_apply s) (hcolon.bind _)).bind _

theorem cut_attributes {v v' : Reader AttributeTerm} (hv : Cut r m l TypeStops Eq v v') :
    Cut r (m + 1) l EntriesStop Eq (optionally (entries v)) (optionally (entries v')) :=
  (cut_blanks.andThen fun _ => cut_entries (hv.mono fun _ => Closes.typeStops)).optional
    fun s _ hs _ => stuck_entries_of_head (sticky_entriesHead s r hs.entries) _

theorem cut_valueNames (hQ : ∀ u, ¬Q (',' :: u)) : Cut r m l Q Eq valueNames valueNames :=
  .separated1 (P := fun _ => True) (cut_blanked (cut_marked '%')) (fun _ => trivial)
    (fun _ _ => trivial) hQ

theorem sticky_marked (mark : Char) : Sticky (marked mark) :=
  (firm_char mark).sticky_bind (fun _ => sticky_takeWhile1.map) fun _ => ⟨[], rfl⟩

theorem sticky_valueNames : Sticky (do blanks; valueNames) := by
  refine firm_blanks.sticky_bind (fun _ => Sticky.separated1 ?_) fun _ => ⟨[], rfl⟩
  refine firm_blanks.sticky_bind (fun _ => ?_) fun _ => ⟨[], rfl⟩
  exact (sticky_marked '%').bind_done fun name s => ⟨name, skip s, rfl⟩

/-- Values start with the mark of a value. -/
theorem starts_of_valueNames {names : List String} (h : valueNames s = .done names t) :
    ∃ u, skip s = '%' :: u ∧ t <:+ u := by
  have hrest (a : String) (n : Nat) : Forward (do
      let names ← separatedRest (blanked valueName) (char ',') n
      return a :: names) :=
    (Forward.separatedRest (cut_blanked (r := []) (m := 0) (l := 0) (P := fun _ => True)
      (cut_marked '%')).forward (forward_char ',') n).bind fun names => .pure (a :: names)
  obtain ⟨a, u, hitem, h⟩ := bind_eq_done.1 h
  obtain ⟨_, _, hblanks, hitem⟩ := bind_eq_done.1 hitem
  cases hblanks
  obtain ⟨name, v, hname, hblanks⟩ := bind_eq_done.1 hitem
  obtain ⟨_, w, hmark, hword⟩ := bind_eq_done.1 hname
  have hwv := (forward_takeWhile1.bind fun _ => .pure _) w name v hword
  have hvu := (forward_blanks.bind fun _ => .pure _) v a u hblanks
  exact ⟨w, char_eq_done.1 hmark, ((hrest a u.length u names t h).trans hvu).trans hwv⟩

theorem cut_operands : Cut r m l (Avoids [',', '@']) Eq (optionally valueNames)
    (optionally valueNames) :=
  .optional (cut_blanks.andThen fun _ => cut_valueNames fun u h =>
    h.head?_ne (c := ',') (by decide) (by decide) rfl) fun s _ _ h => sticky_valueNames s r h

theorem cut_symbolPart : Cut r m l (Avoids ['@']) Eq (optionally symbol) (optionally symbol) :=
  .optional (cut_blanks.andThen fun _ => cut_symbol) fun s _ hs _ =>
    stuck_bind (blanks_apply s) ((stuck_char (hs.front '@' (by decide))).bind _)

/-! ### What shows before a part -/

theorem entriesStop_of_types {ty : Reader TypeTerm} {o : Option (List TypeTerm)}
    (h : optional (resultTypes ty) s = .done o t) (ht : LineStops t) : EntriesStop s := by
  rcases optional_eq_done.1 h with ⟨types, -, h⟩ | ⟨-, -, rfl⟩
  · obtain ⟨_, u, hcolon, -⟩ := bind_eq_done.1 h
    obtain ⟨_, _, hblanks, hcolon⟩ := bind_eq_done.1 hcolon
    cases hblanks
    obtain ⟨_, _, hcolon, -⟩ := bind_eq_done.1 hcolon
    have hhead : (skip s).head? = some ':' := by
      rw [skip, char_eq_done.1 hcolon]
      rfl
    exact ⟨avoids_of_head hhead (by decide), stuck_entriesHead (by rw [hhead]; decide)⟩
  · exact ⟨ht.avoids.mono (by decide), ht.entries⟩

theorem avoids_of_attributes {v : Reader AttributeTerm} {o : Option (List Entry)}
    (h : optionally (entries v) s = .done o t) (ht : EntriesStop t) : Avoids [',', '@'] s := by
  rcases optional_eq_done.1 h with ⟨es, -, h⟩ | ⟨-, -, rfl⟩
  · obtain ⟨_, _, hblanks, h⟩ := bind_eq_done.1 h
    cases hblanks
    obtain ⟨_, _, hbrace, -⟩ := bind_eq_done.1 h
    refine avoids_of_head (c := '{') ?_ (by decide)
    rw [skip, char_eq_done.1 hbrace]
    rfl
  · exact ht.avoids

theorem avoids_of_operands {o : Option (List String)} (h : optionally valueNames s = .done o t)
    (ht : Avoids [',', '@'] t) : Avoids ['@'] s := by
  rcases optional_eq_done.1 h with ⟨names, -, h⟩ | ⟨-, -, rfl⟩
  · obtain ⟨_, _, hblanks, h⟩ := bind_eq_done.1 h
    cases hblanks
    obtain ⟨u, hu, -⟩ := starts_of_valueNames h
    refine avoids_of_head (c := '%') ?_ (by decide)
    rw [← skip_skip]
    exact congrArg List.head? hu
  · exact ht.mono (by decide)

/-! ### Results -/

theorem starts_of_resultNames {names : List String} (h : resultNames s = .done names t) :
    ∃ u, skip s = '%' :: u ∧ t <:+ u := by
  obtain ⟨_, v, hnames, h⟩ := bind_eq_done.1 h
  obtain ⟨u, hu, hvu⟩ := starts_of_valueNames hnames
  exact ⟨u, hu, ((forward_char '=').bind (fun _ => .pure _) v names t h |>.trans hvu)⟩

theorem cut_results :
    Cut r m l (Avoids ['%']) Eq (optional resultNames) (optional resultNames) := by
  refine .optional ((cut_valueNames (Q := fun u => u.head? = some '=') fun u h => ?_).bind
    (fun names => (Cut.char '=').andThen fun _ => .pure rfl) fun names u a t _ h _ => ?_)
    fun s _ hs _ => ?_
  · exact absurd h (by simp)
  · obtain ⟨_, _, hequals, -⟩ := bind_eq_done.1 h
    rw [char_eq_done.1 hequals]
    rfl
  · refine (done_or_stuck resultNames s).resolve_left fun ⟨names, t, h⟩ => ?_
    obtain ⟨u, hu, -⟩ := starts_of_resultNames h
    exact hs.front '%' (by decide) (by rw [hu]; rfl)

/-! ### No attributes before a region -/

/-- An operation does not start like an attribute. -/
def OpPlain (p : Reader OpTerm) : Prop :=
  ∀ s o t, p s = .done o t → OpStops t → Stuck equation (s.dropWhile isSpace)

theorem stuck_equation_of_leaves (h : Leaves isWordStart s) : Stuck equation s :=
  (stuck_word h).bind _

section Regions

variable {p : Reader OpTerm} {ty : Reader TypeTerm}

theorem stuck_equation_of_blocks {bs : List BlockTerm} (hstarts : OpStarts p) (hplain : OpPlain p)
    (hs : Leaves isSpace s) (h : blocks p ty s = .done bs t) : Stuck equation s := by
  rcases blocks_cases s with ⟨u, rfl⟩ | ⟨u, rfl⟩ | hhead
  · exact stuck_equation_of_leaves (leaves_cons.2 (by decide))
  · exact stuck_equation_of_leaves (leaves_cons.2 (by decide))
  · rw [blocks_line p ty hhead] at h
    obtain ⟨os, u, hops, -⟩ := bind_eq_done.1 h
    rw [ops_eq] at hops
    rcases itemsUntil_eq_done hops with ⟨hend, -⟩ | ⟨_, v, o, w, os', -, hnext, hread, htail, -⟩
    · -- the block ends, so the text does
      have hend := (toldBy_opsClosed.eq_done.1 hend).1
      rw [dropWhile_of_leaves hs, opsEnd_eq_true] at hend
      refine stuck_equation_of_leaves fun c hc => absurd ?_ (hhead c hc)
      rcases hend c hc with rfl | rfl <;> decide
    · obtain ⟨-, rfl⟩ := toldBy_opsClosed.eq_done.1 hnext
      rw [dropWhile_of_leaves hs] at hread
      have hstuck := hplain s o w hread (hstarts.stops_of_itemsUntil htail)
      rwa [dropWhile_of_leaves hs] at hstuck

/-- Regions, or none, follow a line. -/
theorem lineStops_of_regions {rs : List RegionTerm} (hstarts : OpStarts p) (hplain : OpPlain p)
    (h : regions p ty s = .done rs t) (ht : OpStops t) : LineStops s := by
  rw [regions_eq] at h
  rcases itemsUntil_eq_done h with ⟨hend, -⟩ | ⟨_, u, rg, v, rs', -, hnext, hread, -, -⟩
  · obtain ⟨hhead, rfl⟩ := regionsClosed_eq_done.1 hend
    refine ⟨fun c hc hs => ?_, stuck_entriesHead fun hs => ?_⟩
    · have hmarks : ∀ c ∈ [',', '(', ':', '@'], isSpace c = false ∧
          ¬(c ∈ ['^', '}', '%'] ∨ isWordStart c) := by decide
      obtain ⟨hspace, hstop⟩ := hmarks c hc
      exact hstop (ht c (by rw [dropWhile_of_leaves (leaves_of_head hs hspace), hs]; rfl))
    · rw [hs] at hhead
      cases hhead
  · obtain ⟨-, rfl⟩ := regionsClosed_eq_done.1 hnext
    obtain ⟨bs, w, hbraces, -⟩ := bind_eq_done.1 hread
    obtain ⟨_, x, hbrace, hinner⟩ := bind_eq_done.1 hbraces
    obtain ⟨_, _, hspaces, hinner⟩ := bind_eq_done.1 hinner
    cases hspaces
    obtain ⟨_, _, hblocks, -⟩ := bind_eq_done.1 hinner
    have hbrace := char_eq_done.1 hbrace
    refine ⟨avoids_of_head (c := '{') (by rw [hbrace]; rfl) (by decide), ?_⟩
    refine stuck_bind (blanks_apply s) ?_
    rw [hbrace]
    refine stuck_bind (char_cons '{' x) (stuck_bind (spaces_apply x) ?_)
    exact stuck_equation_of_blocks hstarts hplain (leaves_dropWhile _ _) hblocks

end Regions

/-! ## Operations -/

/-- How what comes next, where it ends before a rest, shows how a text goes on. -/
def Shows (r : List Char) (f : Reader β) (Q P : List Char → Prop) : Prop :=
  ∀ s b t, r <:+ t → f s = .done b t → Q t → P s

theorem Shows.bind {p : Reader α} {f : α → Reader β} {P' : List Char → Prop}
    (hp : ∀ s a t, p s = .done a t → P' t → P s) (hf : ∀ a, Shows r (f a) Q P') :
    Shows r (p >>= f) Q P := fun s b t ht h hQ => by
  obtain ⟨a, u, hread, h⟩ := bind_eq_done.1 h
  exact hp s a u hread (hf a u b t ht h hQ)

/-- An operation after its name, but for its place. -/
def lineParts (p : Reader OpTerm) (v : Reader AttributeTerm) (ty : Reader TypeTerm)
    (results : List String) (name : String × String) : Reader (Span → OpTerm) := do
  let symbol ← optionally symbol
  let operands ← optionally valueNames
  let attributes ← optionally (entries v)
  let types ← optional (resultTypes ty)
  let regions ← regions p ty
  return fun span => .mk ⟨results, ⟨name.1, name.2⟩, symbol, operands.getD [], attributes.getD [],
    types.getD [], span⟩ regions

/-- An operation, but for its place. -/
def placeless (p : Reader OpTerm) (v : Reader AttributeTerm) (ty : Reader TypeTerm) :
    Reader (Span → OpTerm) := do
  let results ← optional resultNames
  blanks
  let name ← qualifiedName
  lineParts p v ty (results.getD []) name

theorem operation_succ {length : Nat} {term : OpTerm} : operation length (n + 1) s = .done term t ↔
    ∃ g, placeless (operation length n) (value (n + 1)) (type (n + 1)) (s.dropWhile isSpace) =
        .done g t ∧
      term = g ⟨length - byteLength (s.dropWhile isSpace), length - byteLength t⟩ := by
  have hparts : operation length (n + 1) s = (do
      let g ← placeless (operation length n) (value (n + 1)) (type (n + 1))
      let stop ← rest
      return g ⟨length - byteLength (s.dropWhile isSpace), length - byteLength stop⟩)
        (s.dropWhile isSpace) := by
    rw [operation, bind_done (spaces_apply s), bind_done (rest_apply _)]
    simp only [placeless, lineParts, bind_assoc, pure_bind]
  rw [hparts, bind_eq_done]
  constructor
  · rintro ⟨g, u, hread, h⟩
    obtain ⟨rfl, rfl⟩ := pure_eq_done.1 h
    exact ⟨g, hread, rfl⟩
  · rintro ⟨g, hread, rfl⟩
    exact ⟨g, t, hread, rfl⟩

/-- The same operation further on. -/
def MovesTo (k : Nat) (g g' : Span → OpTerm) : Prop :=
  ∀ start stop, Shifted.op k (g' ⟨start, stop⟩) = g ⟨start + k, stop + k⟩

section Line

variable {p p' : Reader OpTerm} {v v' : Reader AttributeTerm} {ty ty' : Reader TypeTerm}

theorem cut_lineParts (hstarts : OpStarts p) (hplain : OpPlain p)
    (hp : Cut r m l OpStops (fun a b => Shifted.op k b = a) p p')
    (hv : Cut r m l TypeStops Eq v v') (hty : Cut r (m + 1) l TypeStops Eq ty ty')
    (results : List String) (name : String × String) :
    Cut r (m + 1) l OpStops (MovesTo k) (lineParts p v ty results name)
      (lineParts p' v' ty' results name) := by
  have hregions (f : List RegionTerm → Span → OpTerm) :
      Shows r (do return f (← regions p ty)) OpStops LineStops :=
    .bind (fun s rs t h (ht : OpStops t) => lineStops_of_regions hstarts hplain h ht)
      fun rs s b t _ h ht => (pure_eq_done.1 h).2 ▸ ht
  have htypes (f : Option (List TypeTerm) → List RegionTerm → Span → OpTerm) :
      Shows r (do let types ← optional (resultTypes ty); return f types (← regions p ty))
        OpStops EntriesStop :=
    .bind (fun s o t => entriesStop_of_types) fun types => hregions (f types)
  have hattributes (f : Option (List Entry) → Option (List TypeTerm) → List RegionTerm → Span →
      OpTerm) : Shows r (do
        let attributes ← optionally (entries v)
        let types ← optional (resultTypes ty)
        return f attributes types (← regions p ty)) OpStops (Avoids [',', '@']) :=
    .bind (fun s o t => avoids_of_attributes) fun attributes => htypes (f attributes)
  refine cut_symbolPart.bind (fun symbol => cut_operands.bind (fun operands =>
    (cut_attributes hv).bind (fun attributes => (cut_types hty).bind (fun types =>
      (cut_regions hstarts (hty.le (Nat.le_succ m)) hp).map ?_) ?_) ?_) ?_) ?_
  · intro rs rs' hrs start stop
    rw [Shifted.op, hrs]
  · exact fun types => hregions _
  · exact fun attributes => htypes _
  · exact fun operands => hattributes _
  · exact fun symbol => Shows.bind (fun s o t => avoids_of_operands) fun operands => hattributes _

theorem cut_placeless (hstarts : OpStarts p) (hplain : OpPlain p)
    (hp : Cut r m l OpStops (fun a b => Shifted.op k b = a) p p')
    (hv : Cut r m l TypeStops Eq v v') (hty : Cut r (m + 1) l TypeStops Eq ty ty') :
    Cut r (m + 1) l OpStops (MovesTo k) (placeless p v ty) (placeless p' v' ty') := by
  refine cut_results.bind (fun results => cut_blanks.andThen fun _ => cut_qualifiedName.andThen
    (cut_lineParts hstarts hplain hp hv hty (results.getD []))) fun results u g t _ h _ => ?_
  obtain ⟨_, _, hblanks, h⟩ := bind_eq_done.1 h
  cases hblanks
  obtain ⟨_, _, hname, -⟩ := bind_eq_done.1 h
  obtain ⟨c, w, hw, hc, -⟩ := starts_of_qualifiedName hname
  exact avoids_of_head (c := c) (congrArg List.head? hw) (not_mem_of_isWordStart hc (by decide))

/-- An operation starts with its results or with its name. -/
theorem of_placeless_eq_done {g : Span → OpTerm} (hs : Leaves isSpace s)
    (h : placeless p v ty s = .done g t) : ∃ results u name w,
      qualifiedName u = .done name w ∧ lineParts p v ty results name w = .done g t ∧
        (s = u ∨ ∃ x, s = '%' :: x ∧ u <:+ x) := by
  obtain ⟨o, u, hresults, h⟩ := bind_eq_done.1 h
  obtain ⟨_, _, hblanks, h⟩ := bind_eq_done.1 h
  cases hblanks
  obtain ⟨name, w, hname, h⟩ := bind_eq_done.1 h
  refine ⟨_, _, name, w, hname, h, ?_⟩
  rcases optional_eq_done.1 hresults with ⟨names, -, hread⟩ | ⟨-, -, rfl⟩
  · obtain ⟨x, hx, hux⟩ := starts_of_resultNames hread
    rw [skip_of_leaves_isSpace hs] at hx
    exact .inr ⟨x, hx, (List.dropWhile_suffix isBlank).trans hux⟩
  · exact .inl (skip_of_leaves_isSpace hs).symm

/-- A line without the marks of its parts has none of them. -/
theorem eq_skip_of_lineParts {results : List String} {name : String × String} {g : Span → OpTerm}
    (hs : Avoids ['@', '%', '{', ':'] s) (h : lineParts p v ty results name s = .done g t) :
    t = skip s := by
  have hmark {c : Char} (hc : c ∈ ['@', '%', '{', ':']) {α : Type} (f : Unit → Reader α) :
      Stuck (char c >>= f) (skip s) := (stuck_char (hs c hc)).bind f
  have hvalues : Stuck valueNames (skip s) := by
    refine (done_or_stuck _ _).resolve_left fun ⟨_, _, hread⟩ => ?_
    obtain ⟨u, hu, -⟩ := starts_of_valueNames hread
    rw [skip_skip] at hu
    exact hs '%' (by decide) (congrArg List.head? hu)
  have hsymbol : Stuck symbol (skip s) := hmark (by decide) _
  have hentries : Stuck (entries v) (skip s) := hmark (by decide) _
  have htypes : Stuck (resultTypes ty) s :=
    (stuck_bind (blanks_apply s) (hmark (by decide) _)).bind _
  rw [lineParts, bind_done (optionally_stuck hsymbol), bind_done (optionally_stuck hvalues),
    bind_done (optionally_stuck hentries), bind_done htypes.optional] at h
  obtain ⟨rs, u, hregions, hpure⟩ := bind_eq_done.1 h
  obtain ⟨-, rfl⟩ := pure_eq_done.1 hpure
  rw [regions_eq] at hregions
  rcases itemsUntil_eq_done hregions with ⟨hend, -⟩ | ⟨_, _, _, _, _, -, hnext, -⟩
  · exact (regionsClosed_eq_done.1 hend).2.symm
  · refine absurd ?_ (hs '{' (by decide))
    simpa using (regionsClosed_eq_done.1 hnext).1

theorem stuck_equation_of_placeless {g : Span → OpTerm} (hs : Leaves isSpace s)
    (h : placeless p v ty s = .done g t) (ht : OpStops t) : Stuck equation s := by
  refine (done_or_stuck equation s).resolve_left fun ⟨_, x, hequation⟩ => ?_
  obtain ⟨_, y, hkey, hequals⟩ := bind_eq_done.1 hequation
  obtain ⟨_, _, hspaces, hequals⟩ := bind_eq_done.1 hequals
  cases hspaces
  have hequals := char_eq_done.1 hequals
  obtain ⟨c, cs, hkeys, hc, hcs, hy⟩ := of_word_eq_done hkey
  obtain ⟨results, u, name, w, hname, hparts, hstart⟩ := of_placeless_eq_done hs h
  obtain rfl : s = u := hstart.resolve_right fun ⟨x, hx, _⟩ => by
    obtain ⟨rfl, -⟩ := List.cons.inj (hkeys.symm.trans hx)
    exact absurd hc (by decide)
  obtain ⟨d, ds, hdotted, -, hds, hw⟩ := of_qualifiedName_eq_done hname
  -- the key goes on at least as far as the name
  have hafter : y = w.dropWhile isKeyChar := by
    have heq := congrArg (List.dropWhile isKeyChar) (List.cons.inj (hkeys.symm.trans hdotted)).2
    rwa [List.dropWhile_append_of_pos hcs, List.dropWhile_append_of_pos hds,
      dropWhile_of_leaves hy] at heq
  have hhead : ∃ e ∈ ['.', '='], (w.dropWhile isSpace).head? = some e := by
    by_cases hdot : w.head? = some '.'
    · exact ⟨'.', by decide, by rw [dropWhile_of_leaves (leaves_of_head hdot (by decide)), hdot]⟩
    · have hleaves : Leaves isKeyChar w := fun e he => by
        have hword := hw e he
        rw [isWordChar] at hword
        rw [isKeyChar, hword, Bool.false_or, decide_eq_false_iff_not]
        exact fun heq => hdot (heq ▸ he)
      rw [dropWhile_of_leaves hleaves] at hafter
      exact ⟨'=', by decide, by rw [← hafter, hequals]; rfl⟩
  obtain ⟨e, he, hhead⟩ := hhead
  have hmarks : ∀ e ∈ ['.', '='], e ∉ ['@', '%', '{', ':'] ∧
      ¬(e ∈ ['^', '}', '%'] ∨ isWordStart e) := by decide
  have hspace : ∀ e ∈ ['@', '%', '{', ':'], isSpace e = false := by decide
  obtain rfl := eq_skip_of_lineParts (fun f hf hskip => by
    have hf' := head?_dropWhile_of_skip hskip (hspace f hf)
    cases hhead.symm.trans hf'
    exact (hmarks e he).1 hf) hparts
  exact (hmarks e he).2 (ht e (by rw [dropWhile_skip]; exact hhead))

theorem starts_of_placeless {g : Span → OpTerm} (hs : Leaves isSpace s)
    (hparts : ∀ results name, Forward (lineParts p v ty results name))
    (h : placeless p v ty s = .done g t) :
    ∃ c u, s = c :: u ∧ (c = '%' ∨ isWordStart c) ∧ t <:+ u := by
  obtain ⟨results, u, name, w, hname, hread, hstart⟩ := of_placeless_eq_done hs h
  obtain ⟨c, x, rfl, hc, hw⟩ := starts_of_qualifiedName hname
  have hx := (hparts results name w g t hread).trans hw
  rcases hstart with rfl | ⟨y, rfl, hy⟩
  · exact ⟨c, x, rfl, .inr hc, hx⟩
  · exact ⟨'%', y, rfl, .inl rfl, hx.trans ((List.suffix_cons c x).trans hy)⟩

end Line

/-- What holds of operations with at most `n` nested brackets. -/
structure OpLevel (r : List Char) (l k n : Nat) : Prop where
  cut : ∀ m, Cut r m l OpStops (fun a b => Shifted.op k b = a)
    (operation (l + k + byteLength r) n) (operation l m)
  starts : OpStarts (operation (l + k + byteLength r) n)
  plain : OpPlain (operation (l + k + byteLength r) n)

theorem opLevel (r : List Char) (l k n : Nat) : OpLevel r l k n := by
  induction n with
  | zero => exact ⟨fun _ => .fail _, fun _ _ _ h => absurd h fail_ne_done,
      fun _ _ _ h => absurd h fail_ne_done⟩
  | succ n ih =>
    have hvalue (m : Nat) : Cut r m l TypeStops Eq (value (n + 1)) (value (m + 1)) :=
      (cut_value (n + 1) (m + 1)).le (Nat.le_succ m)
    have htype (m : Nat) : Cut r (m + 1) l TypeStops Eq (type (n + 1)) (type (m + 1)) :=
      (cut_type (n + 1) (m + 1)).le (Nat.le_succ (m + 1))
    have hplaceless (m : Nat) := cut_placeless ih.starts ih.plain (ih.cut m) (hvalue m) (htype m)
    refine ⟨.of_succ fun m => ⟨fun s o t h => ?_, fun s o t hs h ht => ?_⟩, fun s o t h => ?_,
      fun s o t h ht => ?_⟩
    · obtain ⟨g, hread, -⟩ := operation_succ.1 h
      exact ((hplaceless 0).forward _ g t hread).trans (List.dropWhile_suffix isSpace)
    · obtain ⟨g, hread, rfl⟩ := operation_succ.1 h
      obtain ⟨v, hv, -, hvs⟩ := exists_front ((hplaceless m).forward _ g _ hread)
        (List.dropWhile_suffix isSpace)
      rw [hv] at hread ⊢
      obtain ⟨g', hread', hg⟩ := (hplaceless m).cut v g t (hs.suffix hvs) hread ht
      have hdrop := dropWhile_of_append hv
      refine ⟨_, operation_succ.2 ⟨g', by rwa [hdrop], rfl⟩, ?_⟩
      have hvl := (hs.suffix hvs).bytes
      have htl := (byteLength_le_of_suffix
        (suffix_of_append ((hplaceless m).forward _ g _ hread))).trans hvl
      have hspan (x : Nat) (hx : x ≤ l) :
          l - x + k = l + k + byteLength r - (x + byteLength r) := by
        omega
      rw [hdrop, hg, byteLength_append, byteLength_append, hspan _ hvl, hspan _ htl]
    · obtain ⟨g, hread, -⟩ := operation_succ.1 h
      exact starts_of_placeless (leaves_dropWhile _ _) (fun results name => (cut_lineParts
        ih.starts ih.plain (ih.cut 0) (hvalue 0) (htype 0) results name).forward) hread
    · obtain ⟨g, hread, -⟩ := operation_succ.1 h
      exact stuck_equation_of_placeless (leaves_dropWhile _ _) hread ht

/-- An operation reads the same off the part of a text that it was read from, but for its place and
    those of the operations in it. -/
theorem cut_operation (k n m : Nat) : Cut r m l OpStops (fun a b => Shifted.op k b = a)
    (operation (l + k + byteLength r) n) (operation l m) :=
  (opLevel r l k n).cut m

theorem opStarts_operation (length n : Nat) : OpStarts (operation length n) :=
  (opLevel [] length 0 n).starts

end Source

end Offload
