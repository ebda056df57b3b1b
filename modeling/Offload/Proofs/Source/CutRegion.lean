import Offload.Proofs.Source.CutType
import Offload.Proofs.Source.Reread

/-!
# Reading a part: blocks and regions

Regions that were read before a rest are read the same off the part before it, if this is so of the
operations in them (`cut_regions`). The places of the operations move with the start of the part
(`Shifted`).

Blocks and regions end at a mark, which comes after what was read, so nothing needs to be known of
the rest. An operation has no such mark. It is followed by another one, by the end of its block, or
by nothing (`OpStops`): what goes on reading operations up to the end of a block shows so.
-/

namespace Offload

open Text Text.Reader Source

namespace Shifted

mutual

/-- An operation whose text stands `k` bytes further on. -/
def op (k : Nat) : OpTerm → OpTerm
  | .mk h terms => .mk { h with span := ⟨h.span.start + k, h.span.stop + k⟩ } (regions k terms)

def regions (k : Nat) : List RegionTerm → List RegionTerm
  | [] => []
  | .mk blockTerms :: rest => .mk (blocks k blockTerms) :: regions k rest

def blocks (k : Nat) : List BlockTerm → List BlockTerm
  | [] => []
  | .mk l terms :: rest => .mk l (ops k terms) :: blocks k rest

def ops (k : Nat) : List OpTerm → List OpTerm
  | [] => []
  | term :: rest => op k term :: ops k rest

end

/-- Operations in a row, and the same further on. -/
theorem ops_of_forall₂ {k : Nat} {os os' : List OpTerm}
    (h : List.Forall₂ (fun a b => op k b = a) os os') : ops k os' = os := by
  induction h with
  | nil => rfl
  | cons h _ ih => rw [ops, h, ih]

theorem blocks_of_forall₂ {k : Nat} {bs bs' : List BlockTerm}
    (h : List.Forall₂ (fun a b => blocks k [b] = [a]) bs bs') : blocks k bs' = bs := by
  induction h with
  | nil => rfl
  | @cons a b _ _ h _ ih =>
    obtain ⟨l, terms⟩ := b
    rw [blocks, ← (List.cons.inj h).1, ih]

theorem regions_of_forall₂ {k : Nat} {rs rs' : List RegionTerm}
    (h : List.Forall₂ (fun a b => regions k [b] = [a]) rs rs') : regions k rs' = rs := by
  induction h with
  | nil => rfl
  | @cons a b _ _ h _ ih =>
    obtain ⟨terms⟩ := b
    rw [regions, ← (List.cons.inj h).1, ih]

end Shifted

namespace Source

variable {α β : Type} {r s t u : List Char} {m n l k : Nat} {P Q : List Char → Prop}

/-! ## Items up to a mark -/

section ItemsUntil

variable {closed : Reader Bool} {item : Reader α} {item' : Reader β} {R : α → β → Prop}

theorem itemsUntil_succ (n : Nat) (s : List Char) : itemsUntil closed item (n + 1) s =
    match closed s with
    | .done true t => .done [] t
    | .done false t => (do return (← item) :: (← itemsUntil closed item n)) t
    | .stuck place => .stuck place := by
  rw [itemsUntil, bind_apply]
  cases closed s with
  | done b t => cases b <;> rfl
  | stuck place => rfl

/-- What goes on when items are read: they end, or one of them comes first. -/
theorem itemsUntil_eq_done {as : List α} (h : itemsUntil closed item n s = .done as t) :
    (closed s = .done true t ∧ as = []) ∨ ∃ k u a v as', n = k + 1 ∧ closed s = .done false u ∧
      item u = .done a v ∧ itemsUntil closed item k v = .done as' t ∧ as = a :: as' := by
  cases n with
  | zero => exact absurd h fail_ne_done
  | succ n =>
    rw [itemsUntil_succ] at h
    split at h
    · rename_i hclosed
      cases h
      exact .inl ⟨hclosed, rfl⟩
    · rename_i u hclosed
      obtain ⟨a, v, hitem, h⟩ := bind_eq_done.1 h
      obtain ⟨as', w, htail, hpure⟩ := bind_eq_done.1 h
      obtain ⟨rfl, rfl⟩ := pure_eq_done.1 hpure
      exact .inr ⟨n, u, a, v, as', rfl, hclosed, hitem, htail, rfl⟩
    · cases h

theorem forward_itemsUntil (hclosed : Forward closed) (hitem : Forward item) (n : Nat) :
    Forward (itemsUntil closed item n) := by
  induction n with
  | zero => exact fun _ _ _ h => absurd h fail_ne_done
  | succ n ih =>
    intro s as t h
    rcases itemsUntil_eq_done h with ⟨hend, -⟩ | ⟨k, u, a, v, as', hn, hnext, hread, htail, -⟩
    · exact hclosed s true t hend
    · obtain rfl := Nat.succ.inj hn
      exact (ih v as' t htail).trans ((hitem u a v hread).trans (hclosed s false u hnext))

/-- Whether items end is told by the next character, after those of a class. -/
def ToldBy (cls : Char → Bool) (ends : Option Char → Bool) (closed : Reader Bool) : Prop :=
  ∀ s, closed s = .done (ends (s.dropWhile cls).head?) (s.dropWhile cls)

namespace ToldBy

variable {cls : Char → Bool} {ends : Option Char → Bool}

theorem eq_done (h : ToldBy cls ends closed) {b : Bool} : closed s = .done b t ↔
    ends (s.dropWhile cls).head? = b ∧ s.dropWhile cls = t := by
  rw [h, Reading.done.injEq]

theorem forward (h : ToldBy cls ends closed) : Forward closed := fun s b t hclosed => by
  rw [← (h.eq_done.1 hclosed).2]
  exact List.dropWhile_suffix cls

/-- Where something is left before the rest, its first character tells the same. -/
theorem read (h : ToldBy cls ends closed) {b : Bool} (hnil : t = [] → ends none = b)
    (hclosed : closed (s ++ r) = .done b (t ++ r)) : closed s = .done b t := by
  obtain ⟨hends, hdrop⟩ := h.eq_done.1 hclosed
  have hdrop' := dropWhile_of_append hdrop
  rw [hdrop] at hends
  refine h.eq_done.2 ⟨?_, hdrop'⟩
  rw [hdrop']
  cases t with
  | nil => exact hnil rfl
  | cons c t => exact hends

end ToldBy

/-- Items up to a mark, each of which is followed as `P` says. The mark is not in the rest, unless
    an end of the text would do as well. -/
theorem cut_itemsUntil {cls : Char → Bool} {ends : Option Char → Bool}
    (hclosed : ToldBy cls ends closed)
    (hends : ends none = true ∨ ∀ t, Leaves cls (t ++ r) → Q (t ++ r) → t ≠ [])
    (hlt : ∀ s a t, item s = .done a t → t.length < s.length)
    (hP : ∀ n u as t, itemsUntil closed item n u = .done as t → Q t → P u)
    (hitem : Cut r m l P R item item') (n : Nat) (hk : m ≤ k) :
    Cut r m l Q (List.Forall₂ R) (itemsUntil closed item n) (itemsUntil closed item' k) := by
  have hforward := forward_itemsUntil hclosed.forward hitem.forward
  refine ⟨hforward n, fun s as t hs h hQ => ?_⟩
  have hlength : s.length < k := hs.length.trans_le hk
  clear hk
  induction n generalizing k s as with
  | zero => exact absurd h fail_ne_done
  | succ n ih =>
    obtain ⟨k, rfl⟩ := Nat.exists_eq_add_one.2 (Nat.zero_lt_of_lt hlength)
    rcases itemsUntil_eq_done h with ⟨hend, rfl⟩ | ⟨_, u, a, v, as', hn, hnext, hread, htail, rfl⟩
    · have hleaves : Leaves cls (t ++ r) := by
        rw [← (hclosed.eq_done.1 hend).2]
        exact leaves_dropWhile cls _
      exact ⟨[], itemsUntil_stop (hclosed.read (fun hnil =>
        hends.resolve_right fun hne => hne t hleaves hQ hnil) hend), .nil⟩
    · obtain rfl := Nat.succ.inj hn
      obtain ⟨v, rfl, -, hvu⟩ := exists_front (hforward _ v as' _ htail)
        ((hitem.forward u a v hread).trans (hclosed.forward _ false u hnext))
      obtain ⟨u, rfl, hvu, hus⟩ := exists_front (hitem.forward u a _ hread)
        (hclosed.forward _ false u hnext)
      have hshorter := hlt _ a _ hread
      rw [List.length_append, List.length_append] at hshorter
      have hne : u ≠ [] := by
        rintro rfl
        rw [List.length_nil] at hshorter
        omega
      have hle := hus.length_le
      have hlength' : v.length < k := by omega
      obtain ⟨b, hread', hR⟩ := hitem.cut u a v (hs.suffix hus) hread (hP _ _ _ _ htail hQ)
      obtain ⟨bs, htail', hRs⟩ := ih v as' (hs.suffix (hvu.trans hus)) htail hlength'
      exact ⟨b :: bs, itemsUntil_step (hclosed.read (absurd · hne) hnext) hread' htail', .cons hR hRs⟩

end ItemsUntil

/-! ## Blocks and regions -/

/-- Another operation follows, or the end of its block. -/
def OpStops (s : List Char) : Prop :=
  ∀ c ∈ (s.dropWhile isSpace).head?, c ∈ ['^', '}', '%'] ∨ isWordStart c

/-- What is read starts with the name of a value or with a word, after white space. -/
def OpStarts (p : Reader OpTerm) : Prop := ∀ s a t, p s = .done a t →
  ∃ c u, s.dropWhile isSpace = c :: u ∧ (c = '%' ∨ isWordStart c) ∧ t <:+ u

theorem OpStarts.stops {p : Reader OpTerm} (h : OpStarts p) {a : OpTerm} (hread : p s = .done a t) :
    OpStops s := by
  obtain ⟨c, u, hs, hc, -⟩ := h s a t hread
  intro d hd
  rw [hs] at hd
  cases hd
  exact hc.imp (fun hc => by rw [hc]; decide) id

theorem OpStarts.forward {p : Reader OpTerm} (h : OpStarts p) : Forward p := fun s a t hread => by
  obtain ⟨c, u, hs, -, ht⟩ := h s a t hread
  have hu := List.dropWhile_suffix isSpace (l := s)
  rw [hs] at hu
  exact ht.trans ((List.suffix_cons c u).trans hu)

theorem OpStarts.length_lt {p : Reader OpTerm} (h : OpStarts p) {a : OpTerm}
    (hread : p s = .done a t) : t.length < s.length := by
  obtain ⟨c, u, hs, -, ht⟩ := h s a t hread
  have hle := (List.dropWhile_suffix isSpace (l := s)).length_le
  rw [hs] at hle
  exact Nat.lt_of_le_of_lt ht.length_le hle

/-- The operations of a block end with the text, with the block, or with its region. -/
def opsEnd (o : Option Char) : Bool := o.all fun c => c = '^' || c = '}'

theorem opsEnd_eq_true {o : Option Char} : opsEnd o = true ↔ ∀ c ∈ o, c = '^' ∨ c = '}' := by
  cases o <;> simp [opsEnd]

theorem toldBy_opsClosed : ToldBy isSpace opsEnd opsClosed := fun s => by
  rw [opsClosed, bind_done (spaces_apply s), bind_done (rest_apply _), pure_apply]
  congr 1
  generalize s.dropWhile isSpace = u
  split
  · rfl
  · rfl
  · rfl
  · rename_i hnil hlabel hclose
    refine (Bool.eq_false_iff.2 fun hend => ?_).symm
    cases u with
    | nil => exact hnil rfl
    | cons c u =>
      rcases opsEnd_eq_true.1 hend c rfl with rfl | rfl
      · exact hlabel u rfl
      · exact hclose u rfl

theorem toldBy_blocksClosed : ToldBy isSpace (· == some '}') blocksClosed := fun _ => rfl

theorem toldBy_regionsClosed : ToldBy isBlank (fun o => !(o == some '{')) regionsClosed :=
  regionsClosed_apply

theorem regionsClosed_eq_done {b : Bool} : regionsClosed s = .done b t ↔
    (!((skip s).head? == some '{')) = b ∧ skip s = t := toldBy_regionsClosed.eq_done

section Nested

variable {p p' : Reader OpTerm} {ty ty' : Reader TypeTerm}

theorem OpStarts.stops_of_itemsUntil (h : OpStarts p) {as : List OpTerm}
    (hread : itemsUntil opsClosed p n s = .done as t) : OpStops s := by
  rcases itemsUntil_eq_done hread with ⟨hend, -⟩ | ⟨k, u, a, v, as', -, hnext, hitem, -, -⟩
  · obtain ⟨hend, -⟩ := toldBy_opsClosed.eq_done.1 hend
    intro c hc
    rcases opsEnd_eq_true.1 hend c hc with rfl | rfl
    · exact .inl (by decide)
    · exact .inl (by decide)
  · obtain ⟨-, rfl⟩ := toldBy_opsClosed.eq_done.1 hnext
    have hstops := h.stops hitem
    rwa [OpStops, dropWhile_of_leaves (leaves_dropWhile _ _)] at hstops

theorem cut_ops {R : OpTerm → OpTerm → Prop} (hstarts : OpStarts p)
    (hp : Cut r m l OpStops R p p') : Cut r m l Q (List.Forall₂ R) (ops p) (ops p') := by
  refine Cut.length_bind (f := fun n => itemsUntil opsClosed p (n + 1))
    (g := fun n => itemsUntil opsClosed p' (n + 1))
    (fun n => forward_itemsUntil toldBy_opsClosed.forward hp.forward (n + 1)) fun n k hk => ?_
  exact cut_itemsUntil toldBy_opsClosed (.inl rfl) (fun s a t => hstarts.length_lt)
    (fun n u as t h _ => hstarts.stops_of_itemsUntil h) (hp.le hk) (n + 1) le_rfl

theorem cut_argument (hty : Cut r m l TypeStops Eq ty ty') :
    Cut r m l Closes Eq (argument ty) (argument ty') :=
  (cut_marked '%').andThen fun _ => cut_spaces.andThen fun _ => (Cut.char ':').andThen fun _ =>
    cut_spaces.andThen fun _ => (hty.mono fun _ => Closes.typeStops).map fun _ _ h => h ▸ rfl

/-- What comes after the name of a block. -/
def blockParts (p : Reader OpTerm) (ty : Reader TypeTerm) (name : String) : Reader BlockTerm := do
  let args ← optional (listed '(' ')' (argument ty))
  blanks
  char ':'
  return .mk (some ⟨name, args.getD []⟩) (← ops p)

theorem block_eq_blockParts (p : Reader OpTerm) (ty : Reader TypeTerm) :
    block p ty = (do spaces; blockParts p ty (← labelName)) := rfl

theorem cut_args (hty : Cut r m l TypeStops Eq ty ty') :
    Cut r m l (fun u => u.head? ≠ some '(') Eq (optional (listed '(' ')' (argument ty)))
      (optional (listed '(' ')' (argument ty'))) := by
  refine .optional (.le (cut_listed (by decide) (cut_argument hty) fun s hs => ?_) (Nat.le_succ m))
    fun s _ hs _ => (stuck_char fun hhead => hs (head?_append_of_head? hhead)).bind _
  refine ((stuck_char fun hhead => ?_).bind _).bind _
  exact absurd (hs _ hhead) (by decide)

theorem cut_blockParts (hstarts : OpStarts p) (hty : Cut r m l TypeStops Eq ty ty')
    (hp : Cut r m l OpStops (fun a b => Shifted.op k b = a) p p') (name : String) :
    Cut r m l Q (fun a b => Shifted.blocks k [b] = [a]) (blockParts p ty name)
      (blockParts p' ty' name) := by
  refine (cut_args hty).bind (fun args => cut_blanks.andThen fun _ =>
    (Cut.char ':').andThen fun _ => (cut_ops hstarts hp).map ?_) ?_
  · intro os os' hos
    rw [Shifted.blocks, Shifted.ops_of_forall₂ hos]
    rfl
  · -- a colon comes next, after blanks
    intro args u b t _ h _ hhead
    obtain ⟨_, _, hblanks, h⟩ := bind_eq_done.1 h
    cases hblanks
    obtain ⟨_, _, hcolon, -⟩ := bind_eq_done.1 h
    have hskip := char_eq_done.1 hcolon
    rw [dropWhile_of_leaves (leaves_of_head hhead (by decide))] at hskip
    rw [hskip] at hhead
    cases hhead

/-- A block reads the same, its operations moved. -/
theorem cut_block (hstarts : OpStarts p) (hty : Cut r m l TypeStops Eq ty ty')
    (hp : Cut r m l OpStops (fun a b => Shifted.op k b = a) p p') :
    Cut r m l Q (fun a b => Shifted.blocks k [b] = [a]) (block p ty) (block p' ty') := by
  rw [block_eq_blockParts, block_eq_blockParts]
  exact cut_spaces.andThen fun _ => (cut_marked '^').andThen (cut_blockParts hstarts hty hp)

/-- A block takes the mark of its label, at least. -/
theorem length_lt_of_block {b : BlockTerm} (hparts : ∀ name, Forward (blockParts p ty name))
    (h : block p ty s = .done b t) : t.length < s.length := by
  obtain ⟨_, _, hspaces, h⟩ := bind_eq_done.1 h
  cases hspaces
  obtain ⟨name, u, hname, h⟩ := bind_eq_done.1 h
  have hlt : u.length < (s.dropWhile isSpace).length :=
    length_lt_of_char_bind (f := fun _ => do return String.ofList (← takeWhile1 isWordChar))
      (forward_takeWhile1.bind fun _ => .pure _) hname
  exact ((hparts name u b t h).length_le.trans_lt hlt).trans_le
    (List.dropWhile_suffix isSpace).length_le

/-- The blocks of a region are none, have labels, or there is one without. -/
theorem blocks_cases (s : List Char) :
    (∃ u, s = '}' :: u) ∨ (∃ u, s = '^' :: u) ∨ ∀ c ∈ s.head?, c ∉ ['^', '}'] := by
  cases s with
  | nil => exact .inr (.inr nofun)
  | cons c s =>
    by_cases hclose : c = '}'
    · exact .inl ⟨s, by rw [hclose]⟩
    by_cases hlabel : c = '^'
    · exact .inr (.inl ⟨s, by rw [hlabel]⟩)
    refine .inr (.inr fun d hd hmem => ?_)
    cases hd
    simp only [List.mem_cons, List.not_mem_nil, or_false] at hmem
    exact hmem.elim hlabel hclose

theorem cut_labelled (hstarts : OpStarts p) (hty : Cut r m l TypeStops Eq ty ty')
    (hp : Cut r m l OpStops (fun a b => Shifted.op k b = a) p p') (n : Nat) {j : Nat} (hj : m ≤ j) :
    Cut r m l (ClosedBy '}' r) (List.Forall₂ fun a b => Shifted.blocks k [b] = [a])
      (itemsUntil blocksClosed (block p ty) n) (itemsUntil blocksClosed (block p' ty') j) := by
  refine cut_itemsUntil toldBy_blocksClosed (.inr fun t hleaves hclosed => ?_)
    (fun s b t => length_lt_of_block fun name =>
      (cut_blockParts (Q := fun _ => True) hstarts hty hp name).forward)
    (fun _ _ _ _ _ _ => trivial) (cut_block (Q := fun _ => True) hstarts hty hp) n hj
  obtain ⟨u, rfl⟩ := hclosed.exists_cons hleaves
  exact List.cons_ne_nil _ u

/-- The blocks of a region read the same, their operations moved. -/
theorem cut_blocks (hstarts : OpStarts p) (hty : Cut r m l TypeStops Eq ty ty')
    (hp : Cut r m l OpStops (fun a b => Shifted.op k b = a) p p') :
    Cut r m l (ClosedBy '}' r) (List.Forall₂ fun a b => Shifted.blocks k [b] = [a]) (blocks p ty)
      (blocks p' ty') := by
  have hline : Cut r m l (ClosedBy '}' r) (List.Forall₂ fun a b => Shifted.blocks k [b] = [a])
      (do return [.mk none (← ops p)]) (do return [.mk none (← ops p')]) := by
    refine (cut_ops hstarts hp).map fun os os' hos => .cons ?_ .nil
    rw [Shifted.blocks, Shifted.ops_of_forall₂ hos]
    rfl
  have hlabelled (n j : Nat) (hj : m ≤ j) := cut_labelled hstarts hty hp n hj
  refine ⟨fun s bs t h => ?_, fun s bs t hs h hclosed => ?_⟩
  · rcases blocks_cases s with ⟨u, rfl⟩ | ⟨u, rfl⟩ | hs
    · cases h
      exact List.suffix_rfl
    · exact (hlabelled (u.length + 2) m le_rfl).forward _ bs t ((blocks_mark p ty u).symm.trans h)
    · exact hline.forward s bs t ((blocks_line p ty hs).symm.trans h)
  · rcases blocks_cases (s ++ r) with ⟨u, hu⟩ | ⟨u, hu⟩ | hu
    · rw [hu] at h
      obtain ⟨rfl, ht⟩ := Reading.done.inj (h : Reading.done [] ('}' :: u) = _)
      obtain rfl := List.append_cancel_right (hu.trans ht)
      obtain ⟨w, rfl⟩ := hclosed.exists_cons (ht ▸ leaves_cons.2 (by decide))
      exact ⟨[], rfl, .nil⟩
    · rw [hu, blocks_mark, ← hu] at h
      obtain ⟨bs', hread, hbs⟩ := (cut_labelled hstarts (hty.le hs.length) (hp.le hs.length) _
        le_rfl).cut s bs t ⟨Nat.lt_succ_self _, hs.bytes⟩ h hclosed
      cases s with
      | nil => cases hread
      | cons c s =>
        obtain ⟨rfl, -⟩ := List.cons.inj hu
        exact ⟨bs', (blocks_mark p' ty' s).trans hread, hbs⟩
    · rw [blocks_line p ty hu] at h
      rw [blocks_line p' ty' fun c hc => hu c (head?_append_of_head? hc)]
      exact hline.cut s bs t hs h hclosed

/-- A region reads the same, its operations moved. -/
theorem cut_region (hstarts : OpStarts p) (hty : Cut r m l TypeStops Eq ty ty')
    (hp : Cut r m l OpStops (fun a b => Shifted.op k b = a) p p') :
    Cut r (m + 1) l Q (fun a b => Shifted.regions k [b] = [a]) (region p ty) (region p' ty') := by
  refine (cut_bracketed (cut_blocks hstarts hty hp)).map fun bs bs' hbs => ?_
  rw [Shifted.regions, Shifted.blocks_of_forall₂ hbs]
  rfl

/-- The regions of an operation read the same, their operations moved. -/
theorem cut_regions (hstarts : OpStarts p) (hty : Cut r m l TypeStops Eq ty ty')
    (hp : Cut r m l OpStops (fun a b => Shifted.op k b = a) p p') :
    Cut r (m + 1) l Q (fun a b => Shifted.regions k b = a) (regions p ty) (regions p' ty') := by
  have hregion := cut_region (Q := fun _ => True) hstarts hty hp
  have hlt (s : List Char) (a : RegionTerm) (t : List Char) (h : region p ty s = .done a t) :
      t.length < s.length := by
    obtain ⟨bs, u, hread, hpure⟩ := bind_eq_done.1 h
    obtain ⟨-, rfl⟩ := pure_eq_done.1 hpure
    exact length_lt_of_bracketed (cut_blocks hstarts hty hp).forward hread
  have hregions : Cut r (m + 1) l Q (List.Forall₂ fun a b => Shifted.regions k [b] = [a])
      (regions p ty) (regions p' ty') := by
    refine Cut.length_bind (f := fun n => itemsUntil regionsClosed (region p ty) (n + 1))
      (g := fun n => itemsUntil regionsClosed (region p' ty') (n + 1)) (fun n =>
        forward_itemsUntil toldBy_regionsClosed.forward hregion.forward (n + 1)) fun n k hk => ?_
    exact cut_itemsUntil toldBy_regionsClosed (.inl rfl) hlt (fun _ _ _ _ _ _ => trivial)
      (hregion.le hk) (n + 1) le_rfl
  exact ⟨hregions.forward, fun s rs t hs h hQ => by
    obtain ⟨rs', hread, hrs⟩ := hregions.cut s rs t hs h hQ
    exact ⟨rs', hread, Shifted.regions_of_forall₂ hrs⟩⟩

end Nested

end Source

end Offload
