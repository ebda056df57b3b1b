import Mathlib.Logic.Relation
import Offload.Proofs.Source.CutOp
import Offload.Source.Read
import Offload.Text.Blank

/-!
# Spans of operations

The spans in the term of a text mirror its nesting. An operation takes up a part of the text that is
not empty and starts with no white space, off which it reads the same (`Covers`); what is nested in
it lies strictly inside, and the operations directly in it stand one after another (`Laminar`).

The operations in an operation are read one after another in what it is read from (`Scattered`),
between its name and a closing brace. So each of them stands in the text like the outer one does
(`Stands`), and strictly inside of it. The rest goes along with the nesting, and is about one
operation at a time.
-/

namespace Offload

open Text Text.Reader Source

/-! ## Nested operations -/

namespace OpTerm

/-- The operations directly in a block, a region or an operation, in the order of the text. -/
def ofBlock : BlockTerm → List OpTerm
  | .mk _ ops => ops

def ofRegion : RegionTerm → List OpTerm
  | .mk blocks => blocks.flatMap ofBlock

def children : OpTerm → List OpTerm
  | .mk _ regions => regions.flatMap ofRegion

def span (o : OpTerm) : Span := o.head.span

/-- One operation is nested in another. -/
def Encloses : OpTerm → OpTerm → Prop := Relation.TransGen fun a b => b ∈ a.children

/-- One operation is another, or is nested in it. -/
def Contains : OpTerm → OpTerm → Prop := Relation.ReflTransGen fun a b => b ∈ a.children

end OpTerm

/-- An operation takes up its span of a text: a part of it that starts with no white space. Read as
    a text of its own, with brackets nested as deep as a text of its length can have them, this part
    is used up, and gives the same operation but for places, which move with the start. -/
structure Covers (text : List Char) (o : OpTerm) : Prop where
  start_lt_stop : o.span.start < o.span.stop
  stop_le : o.span.stop ≤ byteLength text
  rereads : ∃ before slice after, text = before ++ slice ++ after ∧
    byteLength before = o.span.start ∧ byteLength (before ++ slice) = o.span.stop ∧
    (∃ c ∈ slice.head?, Text.isBlank c = false) ∧
    ∃ again, operation (byteLength slice) (slice.length + 2) slice = .done again [] ∧
      Shifted.op o.span.start again = o

/-- The spans of the operations in a term lie in a text as the operations are nested. -/
structure Laminar (text : List Char) (term : OpTerm) : Prop where
  covers : ∀ o, term.Contains o → Covers text o
  inside : ∀ a b, term.Contains a → a.Encloses b →
    a.span.start < b.span.start ∧ b.span.stop < a.span.stop
  apart : ∀ o, term.Contains o → o.children.Pairwise fun a b => a.span.stop ≤ b.span.start

namespace Source

variable {α : Type} {length n : Nat} {s t u text : List Char} {o : OpTerm} {os : List OpTerm}

/-! ## What an operation is read from -/

/-- A line is read up to its regions, and has its place put in. -/
theorem of_lineParts_eq_done {p : Reader OpTerm} {results : List String} {name : String × String}
    {g : Span → OpTerm}
    (h : lineParts p (value n) (type n) results name s = .done g t) :
    ∃ rs w, regions p (type n) w = .done rs t ∧ w <:+ s ∧
      ∀ span, (g span).span = span ∧ (g span).children = rs.flatMap OpTerm.ofRegion := by
  obtain ⟨symbol, s₁, hsymbol, h⟩ := bind_eq_done.1 h
  obtain ⟨operands, s₂, hoperands, h⟩ := bind_eq_done.1 h
  obtain ⟨attributes, s₃, hattributes, h⟩ := bind_eq_done.1 h
  obtain ⟨types, s₄, htypes, h⟩ := bind_eq_done.1 h
  obtain ⟨rs, s₅, hregions, hpure⟩ := bind_eq_done.1 h
  obtain ⟨rfl, rfl⟩ := pure_eq_done.1 hpure
  have hvalue : Cut [] 0 0 TypeStops Eq (value n) (value 0) := cut_value n 0
  have htype : Cut [] 0 0 TypeStops Eq (type n) (type 0) := (cut_type n 0).le (Nat.zero_le _)
  have h₁ := (cut_symbolPart (r := []) (m := 0) (l := 0)).forward s symbol s₁ hsymbol
  have h₂ := (cut_operands (r := []) (m := 0) (l := 0)).forward s₁ operands s₂ hoperands
  have h₃ := (cut_attributes hvalue).forward s₂ attributes s₃ hattributes
  have h₄ := (cut_types htype).forward s₃ types s₄ htypes
  exact ⟨rs, s₄, hregions, h₄.trans (h₃.trans (h₂.trans h₁)), fun span => ⟨rfl, rfl⟩⟩

/-- The regions of an operation are read after the start of it, up to its end. -/
theorem of_operation_eq_done (h : operation length (n + 1) s = .done o t) :
    o.span = ⟨length - byteLength (s.dropWhile isSpace), length - byteLength t⟩ ∧
      ∃ rs w, o.children = rs.flatMap OpTerm.ofRegion ∧
        regions (operation length n) (type (n + 1)) w = .done rs t ∧
        w <:+ s.dropWhile isSpace ∧ w ≠ s.dropWhile isSpace := by
  obtain ⟨g, hread, rfl⟩ := operation_succ.1 h
  obtain ⟨results, u, name, v, hname, hparts, hstart⟩ :=
    of_placeless_eq_done (leaves_dropWhile _ _) hread
  obtain ⟨c, x, rfl, -, hvx⟩ := starts_of_qualifiedName hname
  obtain ⟨rs, w, hregions, hwv, hg⟩ := of_lineParts_eq_done hparts
  refine ⟨(hg _).1, rs, w, (hg _).2, hregions, ?_⟩
  -- it starts with its results, or else with its name
  rcases hstart with heq | ⟨y, heq, hy⟩
  · rw [heq]
    exact suffix_cons_ne (hwv.trans hvx)
  · rw [heq]
    exact suffix_cons_ne (((hwv.trans hvx).trans (List.suffix_cons c x)).trans hy)

theorem span_of_operation (h : operation length n s = .done o t) :
    o.span = ⟨length - byteLength (s.dropWhile isSpace), length - byteLength t⟩ := by
  cases n with
  | zero => exact absurd h fail_ne_done
  | succ n => exact (of_operation_eq_done h).1

/-! ## Operations read one after another -/

/-- Operations read one after another, with other things before, between and after them. -/
inductive Scattered (p : Reader OpTerm) : List OpTerm → List Char → List Char → Prop
  | nil {s t : List Char} (h : t <:+ s) : Scattered p [] s t
  | cons {s u v t : List Char} {o : OpTerm} {os : List OpTerm} (hu : u <:+ s)
    (hread : p u = .done o v) (hv : OpStops v) (hrest : Scattered p os v t) :
    Scattered p (o :: os) s t

namespace Scattered

variable {p : Reader OpTerm} {os' : List OpTerm}

theorem widen {s' : List Char} (h : Scattered p os s t) (hs : s <:+ s') : Scattered p os s' t := by
  cases h with
  | nil h => exact .nil (h.trans hs)
  | cons hu hread hv hrest => exact .cons (hu.trans hs) hread hv hrest

theorem append (h : Scattered p os s t) (h' : Scattered p os' t u) :
    Scattered p (os ++ os') s u := by
  induction h with
  | nil hs => exact h'.widen hs
  | cons hu hread hv _ ih => exact .cons hu hread hv (ih h')

theorem extend (h : Scattered p os s t) (ht : u <:+ t) : Scattered p os s u := by
  simpa using h.append (.nil ht)

theorem suffix (hp : Forward p) (h : Scattered p os s t) : t <:+ s := by
  induction h with
  | nil h => exact h
  | cons hu hread _ _ ih => exact (ih.trans (hp _ _ _ hread)).trans hu

/-- What each of the operations was read from. -/
theorem of_mem (hp : Forward p) (h : Scattered p os s t) (ho : o ∈ os) :
    ∃ u v, u <:+ s ∧ p u = .done o v ∧ OpStops v ∧ t <:+ v := by
  induction h with
  | nil => cases ho
  | @cons s u v t a os hu hread hv hrest ih =>
    rcases List.mem_cons.1 ho with rfl | ho
    · exact ⟨u, v, hu, hread, hv, hrest.suffix hp⟩
    · obtain ⟨u', v', hu', h⟩ := ih ho
      exact ⟨u', v', (hu'.trans (hp u a v hread)).trans hu, h⟩

/-- Each operation ends before the next one starts. -/
theorem apart (hp : Forward (operation length n)) (h : Scattered (operation length n) os s t) :
    os.Pairwise fun a b => a.span.stop ≤ b.span.start := by
  induction h with
  | nil => exact .nil
  | cons hu hread hv hrest ih =>
    refine .cons (fun b hb => ?_) ih
    obtain ⟨u', v', hu', hread', -⟩ := hrest.of_mem hp hb
    -- the later one is read in what the earlier one left
    rw [span_of_operation hread, span_of_operation hread']
    have := byteLength_le_of_suffix ((List.dropWhile_suffix isSpace).trans hu')
    dsimp only
    omega

end Scattered

section Nested

variable {p : Reader OpTerm} {ty : Reader TypeTerm}

/-- Items with operations in them, up to a mark. -/
theorem scattered_itemsUntil {closed : Reader Bool} {item : Reader α} {f : α → List OpTerm}
    (hclosed : Forward closed)
    (hitem : ∀ s a t, item s = .done a t → Scattered p (f a) s t) {as : List α}
    (h : itemsUntil closed item n s = .done as t) : Scattered p (as.flatMap f) s t := by
  induction n generalizing s as with
  | zero => exact absurd h fail_ne_done
  | succ n ih =>
    rcases itemsUntil_eq_done h with ⟨hend, rfl⟩ | ⟨k, u, a, v, as', hn, hnext, hread, htail, rfl⟩
    · exact .nil (hclosed s _ t hend)
    · obtain rfl := Nat.succ.inj hn
      rw [List.flatMap_cons]
      exact ((hitem u a v hread).widen (hclosed s _ u hnext)).append (ih htail)

theorem scattered_ops (hstarts : OpStarts p) (h : ops p s = .done os t) : Scattered p os s t := by
  rw [ops_eq] at h
  generalize s.length + 1 = n at h
  induction n generalizing s os with
  | zero => exact absurd h fail_ne_done
  | succ n ih =>
    rcases itemsUntil_eq_done h with ⟨hend, rfl⟩ | ⟨k, u, a, v, as', hn, hnext, hread, htail, rfl⟩
    · exact .nil (toldBy_opsClosed.forward s _ t hend)
    · obtain rfl := Nat.succ.inj hn
      exact .cons (toldBy_opsClosed.forward s _ u hnext) hread (hstarts.stops_of_itemsUntil htail)
        (ih htail)

theorem scattered_block {b : BlockTerm} (hstarts : OpStarts p)
    (hty : Cut [] 0 0 TypeStops Eq ty ty) (h : block p ty s = .done b t) :
    Scattered p (OpTerm.ofBlock b) s t := by
  obtain ⟨_, s₁, hspaces, h⟩ := bind_eq_done.1 h
  obtain ⟨name, s₂, hname, h⟩ := bind_eq_done.1 h
  obtain ⟨args, s₃, hargs, h⟩ := bind_eq_done.1 h
  obtain ⟨_, s₄, hblanks, h⟩ := bind_eq_done.1 h
  obtain ⟨_, s₅, hcolon, h⟩ := bind_eq_done.1 h
  obtain ⟨os, s₆, hops, hpure⟩ := bind_eq_done.1 h
  obtain ⟨rfl, rfl⟩ := pure_eq_done.1 hpure
  have h₁ := forward_spaces s _ s₁ hspaces
  have h₂ := ((forward_char '^').bind fun _ => forward_takeWhile1.bind fun _ => .pure _) s₁ name s₂
    hname
  have h₃ := (cut_args hty).forward s₂ args s₃ hargs
  have h₄ := forward_blanks s₃ _ s₄ hblanks
  have h₅ := forward_char ':' s₄ _ s₅ hcolon
  exact (scattered_ops hstarts hops).widen (h₅.trans (h₄.trans (h₃.trans (h₂.trans h₁))))

theorem scattered_blocks {bs : List BlockTerm} (hstarts : OpStarts p)
    (hty : Cut [] 0 0 TypeStops Eq ty ty) (h : blocks p ty s = .done bs t) :
    Scattered p (bs.flatMap OpTerm.ofBlock) s t := by
  rcases blocks_cases s with ⟨u, rfl⟩ | ⟨u, rfl⟩ | hs
  · cases h
    exact .nil List.suffix_rfl
  · exact scattered_itemsUntil toldBy_blocksClosed.forward
      (fun s b t => scattered_block hstarts hty) ((blocks_mark p ty u).symm.trans h)
  · rw [blocks_line p ty hs] at h
    obtain ⟨os, u, hops, hpure⟩ := bind_eq_done.1 h
    obtain ⟨rfl, rfl⟩ := pure_eq_done.1 hpure
    simpa [OpTerm.ofBlock] using scattered_ops hstarts hops

/-- A brace comes after the operations of a region. -/
theorem scattered_region {rg : RegionTerm} (hstarts : OpStarts p)
    (hty : Cut [] 0 0 TypeStops Eq ty ty) (h : region p ty s = .done rg t) :
    Scattered p (OpTerm.ofRegion rg) s ('}' :: t) := by
  obtain ⟨bs, u, hbraces, hpure⟩ := bind_eq_done.1 h
  obtain ⟨rfl, rfl⟩ := pure_eq_done.1 hpure
  obtain ⟨_, s₁, hopening, hinner⟩ := bind_eq_done.1 hbraces
  obtain ⟨_, s₂, hspaces, hinner⟩ := bind_eq_done.1 hinner
  obtain ⟨_, s₃, hblocks, hinner⟩ := bind_eq_done.1 hinner
  obtain ⟨_, s₄, hspaces', hinner⟩ := bind_eq_done.1 hinner
  obtain ⟨_, s₅, hclosing, hpure⟩ := bind_eq_done.1 hinner
  obtain ⟨rfl, rfl⟩ := pure_eq_done.1 hpure
  rw [← char_eq_done.1 hclosing]
  exact ((scattered_blocks hstarts hty hblocks).widen ((forward_spaces _ _ _ hspaces).trans
    (forward_char '{' _ _ _ hopening))).extend (forward_spaces _ _ _ hspaces')

/-- A brace comes after the operations of some regions. -/
theorem scattered_regions {rs : List RegionTerm} (hstarts : OpStarts p)
    (hty : Cut [] 0 0 TypeStops Eq ty ty) (h : regions p ty s = .done rs t) :
    rs.flatMap OpTerm.ofRegion = [] ∨
      ∃ u, Scattered p (rs.flatMap OpTerm.ofRegion) s ('}' :: u) ∧ t <:+ u := by
  rw [regions_eq] at h
  generalize s.length + 1 = n at h
  induction n generalizing s rs with
  | zero => exact absurd h fail_ne_done
  | succ n ih =>
    rcases itemsUntil_eq_done h with ⟨-, rfl⟩ | ⟨k, u, rg, v, rs', hn, hnext, hread, htail, rfl⟩
    · exact .inl rfl
    · obtain rfl := Nat.succ.inj hn
      have hregion := (scattered_region hstarts hty hread).widen
        (toldBy_regionsClosed.forward s _ u hnext)
      rw [List.flatMap_cons]
      rcases ih htail with hnil | ⟨w, hrest, ht⟩
      · rw [hnil, List.append_nil]
        refine .inr ⟨v, hregion, forward_itemsUntil toldBy_regionsClosed.forward ?_ n v rs' t htail⟩
        exact fun s rg t h => (List.suffix_cons '}' t).trans
          ((scattered_region hstarts hty h).suffix hstarts.forward)
      · exact .inr ⟨w, (hregion.extend (List.suffix_cons '}' v)).append hrest, ht⟩

end Nested

/-! ## Where an operation stands in a text -/

/-- An operation is read off an end `s` of a text, where `t` is left. -/
structure Stands (text : List Char) (o : OpTerm) (s t : List Char) : Prop where
  suffix : s <:+ text
  read : ∃ n, operation (byteLength text) n s = .done o t
  stops : OpStops t

theorem Stands.span (h : Stands text o s t) : o.span =
    ⟨byteLength text - byteLength (s.dropWhile isSpace), byteLength text - byteLength t⟩ := by
  obtain ⟨n, hread⟩ := h.read
  exact span_of_operation hread

/-- What is directly in an operation is read strictly inside of what the operation is read from. -/
theorem Stands.children (h : Stands text o s t) : ∃ n u v,
    (o.children = [] ∨ Scattered (operation (byteLength text) n) o.children u v) ∧
      u <:+ s.dropWhile isSpace ∧ u ≠ s.dropWhile isSpace ∧ t <:+ v ∧ t ≠ v := by
  obtain ⟨n, hread⟩ := h.read
  cases n with
  | zero => exact absurd hread fail_ne_done
  | succ n =>
    obtain ⟨-, rs, w, hchildren, hregions, hw, hne⟩ := of_operation_eq_done hread
    have hty : Cut [] 0 0 TypeStops Eq (type (n + 1)) (type (n + 1)) :=
      (cut_type (n + 1) (n + 1)).le (Nat.zero_le _)
    rw [hchildren]
    rcases scattered_regions (opStarts_operation _ n) hty hregions with hnil | ⟨v, hscattered, hv⟩
    · exact ⟨n, w, ' ' :: t, .inl hnil, hw, hne, suffix_cons_ne List.suffix_rfl⟩
    · exact ⟨n, w, '}' :: v, .inr hscattered, hw, hne, suffix_cons_ne hv⟩

/-- The operations directly in one stand in the text as well, strictly inside of it. -/
theorem Stands.child {o' : OpTerm} (h : Stands text o s t) (ho : o' ∈ o.children) :
    (∃ s' t', Stands text o' s' t') ∧ o.span.start < o'.span.start ∧
      o'.span.stop < o.span.stop := by
  obtain ⟨n, u, v, hscattered, hu, hne, hv, hne'⟩ := h.children
  -- it is one of those that are read one after another between the name and the last brace
  have hscattered := hscattered.resolve_left (List.ne_nil_of_mem ho)
  obtain ⟨u', v', hu', hread, hstops, hv'⟩ := hscattered.of_mem (opStarts_operation _ n).forward ho
  have hs := (List.dropWhile_suffix isSpace (l := s)).trans h.suffix
  have hstands : Stands text o' u' v' := ⟨hu'.trans (hu.trans hs), ⟨n, hread⟩, hstops⟩
  refine ⟨⟨u', v', hstands⟩, ?_⟩
  rw [h.span, hstands.span]
  have hstart := byteLength_lt_of_suffix hu hne
  have hstop := byteLength_lt_of_suffix hv hne'
  have hinner := byteLength_le_of_suffix ((List.dropWhile_suffix isSpace).trans hu')
  have hafter := byteLength_le_of_suffix hv'
  have hall := byteLength_le_of_suffix hs
  have hread' := byteLength_le_of_suffix
    (((opStarts_operation _ n).forward u' o' v' hread).trans hstands.suffix)
  dsimp only
  constructor
  · omega
  · omega

/-- The operations directly in one end before the next one starts. -/
theorem Stands.apart (h : Stands text o s t) :
    o.children.Pairwise fun a b => a.span.stop ≤ b.span.start := by
  obtain ⟨n, u, v, hnil | hscattered, -⟩ := h.children
  · rw [hnil]
    exact .nil
  · exact hscattered.apart (opStarts_operation _ n).forward

theorem isBlank_of_isWordStart {c : Char} (h : isWordStart c) : Text.isBlank c = false := by
  delta isWordStart Char.isAlpha Char.isUpper Char.isLower at h
  simp only [Bool.or_eq_true, Bool.and_eq_true, decide_eq_true_eq, UInt32.le_iff_toNat_le,
    ge_iff_le] at h
  have hrange : 65 ≤ c.toNat ∧ c.toNat ≤ 122 := by
    rcases h with (h | h) | rfl
    · exact ⟨h.1, h.2.trans (by decide)⟩
    · exact ⟨le_trans (by decide) h.1, h.2⟩
    · decide
  simp only [Text.isBlank, Bool.or_eq_false_iff, Bool.and_eq_false_iff, decide_eq_false_iff_not]
  omega

theorem operation_dropWhile : operation length n (s.dropWhile isSpace) = .done o t ↔
    operation length n s = .done o t := by
  cases n with
  | zero => exact ⟨fun h => absurd h fail_ne_done, fun h => absurd h fail_ne_done⟩
  | succ n => rw [operation_succ, operation_succ, dropWhile_of_leaves (leaves_dropWhile _ _)]

/-- An operation takes up the part of the text that it is read from. -/
theorem Stands.covers (h : Stands text o s t) : Covers text o := by
  obtain ⟨n, hread⟩ := h.read
  obtain ⟨c, u, hs, hc, ht⟩ := opStarts_operation _ n s o t hread
  obtain ⟨slice, hslice⟩ := ht
  obtain ⟨before, hbefore⟩ := (List.dropWhile_suffix isSpace (l := s)).trans h.suffix
  rw [hs, ← hslice, ← List.cons_append] at hbefore
  have hspan := h.span
  rw [← operation_dropWhile, hs, ← hslice, ← List.cons_append] at hread
  rw [hs, ← hslice, ← List.cons_append] at hspan
  -- with its own part as the text, it is followed by nothing, and starts at the first byte
  have hlength : byteLength text =
      byteLength (c :: slice) + byteLength before + byteLength t := by
    rw [← hbefore, byteLength_append, byteLength_append, Nat.add_left_comm, Nat.add_assoc]
  have hpos : 0 < byteLength (c :: slice) := Nat.add_pos_left c.utf8Size_pos _
  rw [hlength, byteLength_append] at hspan
  have hstart : byteLength before = o.span.start := by
    rw [hspan]
    dsimp only
    omega
  have hstop : byteLength (before ++ c :: slice) = o.span.stop := by
    rw [hspan, byteLength_append]
    dsimp only
    omega
  rw [hlength] at hread
  obtain ⟨again, hagain, hshifted⟩ := (cut_operation (byteLength before) n _).cut (c :: slice) o []
    ⟨Nat.lt_add_of_pos_right Nat.two_pos, le_rfl⟩ hread h.stops
  refine ⟨?_, ?_, before, c :: slice, t, ?_, hstart, hstop, ⟨c, rfl, ?_⟩, again, hagain, ?_⟩
  · rw [← hstart, ← hstop, byteLength_append]
    omega
  · rw [← hstop, hlength, byteLength_append]
    omega
  · rw [← hbefore, List.append_assoc]
  · rcases hc with rfl | hc
    · decide
    · exact isBlank_of_isWordStart hc
  · rw [← hstart, hshifted]

/-! ## Along the nesting -/

/-- What is in an operation stands in the text. -/
theorem Stands.contained {o' : OpTerm} (h : Stands text o s t) (ho : o.Contains o') :
    ∃ s' t', Stands text o' s' t' := by
  induction ho with
  | refl => exact ⟨s, t, h⟩
  | tail _ hchild ih =>
    obtain ⟨s', t', h'⟩ := ih
    exact (h'.child hchild).1

theorem Stands.inside {o' : OpTerm} (h : Stands text o s t) (ho : o.Encloses o') :
    o.span.start < o'.span.start ∧ o'.span.stop < o.span.stop := by
  induction ho with
  | single hchild => exact (h.child hchild).2
  | tail hnested hchild ih =>
    obtain ⟨s', t', h'⟩ := h.contained hnested.to_reflTransGen
    have hinner := (h'.child hchild).2
    exact ⟨ih.1.trans hinner.1, hinner.2.trans ih.2⟩

theorem Stands.laminar (h : Stands text o s t) : Laminar text o where
  covers a ha := by
    obtain ⟨s', t', h'⟩ := h.contained ha
    exact h'.covers
  inside a b ha hab := by
    obtain ⟨s', t', h'⟩ := h.contained ha
    exact h'.inside hab
  apart a ha := by
    obtain ⟨s', t', h'⟩ := h.contained ha
    exact h'.apart

end Source

/-- The spans in the term of a text are laminar. -/
theorem laminar_of_readTerm {text : String} {term : OpTerm} (h : readTerm text = .ok term) :
    Laminar text.toList term := by
  unfold readTerm at h
  dsimp only at h
  split at h
  · cases h
  · rename_i o rest hread
    split at h
    · rename_i hspaces
      cases h
      refine Stands.laminar ⟨List.suffix_rfl, ⟨_, hread⟩, fun c hc => ?_⟩
      rw [List.isEmpty_iff.1 hspaces] at hc
      cases hc
    · cases h

end Offload
