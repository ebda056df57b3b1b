import Offload.Proofs.Text.Numeral
import Offload.Proofs.Text.Quoted

/-!
# Reading a part of a text

Where a reader stops in a text, the text may as well end: the reader reads the same off the part
up to there (`Cut`). It has then read on as far as it could, and what it turned down on the way it
turns down again. This is not for free. A word goes on into the text that follows, and something
optional may be missing only because of what follows, so it has to be known how the text goes on.

Two properties of readers help with what is turned down. A reader is *firm* if more text changes
nothing once there is some text left (`Firm`); it is *sticky* if, where it gets stuck, it does so in
every text cut short as well (`Sticky`).

The readers of nested brackets count these down, and the places of operations are counted from the
end of the text. So the two readers of a `Cut` may differ in such a number, and what they read in a
place; the bounds `m` and `l` on the characters and the bytes of the part say that the number for
the part is large enough.
-/

namespace Offload.Text.Reader

variable {α β γ δ : Type} {s t u v r : List Char} {a : α}

/-! ## Characters and bytes -/

theorem byteLength_append (s t : List Char) :
    byteLength (s ++ t) = byteLength s + byteLength t := by
  induction s with
  | nil => exact (Nat.zero_add _).symm
  | cons c s ih => rw [List.cons_append, byteLength, byteLength, ih, Nat.add_assoc]

theorem byteLength_le_of_suffix (h : t <:+ s) : byteLength t ≤ byteLength s := by
  obtain ⟨u, rfl⟩ := h
  rw [byteLength_append]
  exact Nat.le_add_left _ _

/-- What is cut off takes bytes. -/
theorem byteLength_lt_of_suffix (h : t <:+ s) (hne : t ≠ s) : byteLength t < byteLength s := by
  obtain ⟨_ | ⟨c, u⟩, rfl⟩ := h
  · exact absurd rfl hne
  · have := c.utf8Size_pos
    rw [byteLength_append, byteLength]
    omega

theorem suffix_cons_ne {c : Char} (h : t <:+ s) : t <:+ c :: s ∧ t ≠ c :: s := by
  refine ⟨h.trans (List.suffix_cons c s), ?_⟩
  rintro rfl
  exact Nat.not_succ_le_self _ h.length_le

theorem suffix_of_append (h : t ++ r <:+ s ++ r) : t <:+ s := by
  obtain ⟨w, hw⟩ := h
  exact ⟨w, List.append_cancel_right (by rw [List.append_assoc, hw])⟩

/-- What lies between two texts with the same end has this end, too. -/
theorem exists_front (ht : t ++ r <:+ u) (hs : u <:+ s ++ r) :
    ∃ v, u = v ++ r ∧ t <:+ v ∧ v <:+ s := by
  obtain ⟨w, rfl⟩ := ht
  rw [← List.append_assoc] at hs ⊢
  exact ⟨w ++ t, rfl, List.suffix_append w t, suffix_of_append hs⟩

/-- A character before a text that has the rest as an end is none of the rest. -/
theorem exists_cons_front {c : Char} (hs : s ++ r = c :: u) (hr : r <:+ u) :
    ∃ v, s = c :: v ∧ u = v ++ r := by
  cases s with
  | nil => exact absurd hs (suffix_cons_ne hr).2
  | cons d s =>
    obtain ⟨rfl, rfl⟩ := List.cons.inj hs
    exact ⟨s, rfl, rfl⟩

theorem head?_append_of_head? {c : Char} (h : s.head? = some c) : (s ++ r).head? = some c := by
  rw [List.head?_append, h, Option.some_or]

theorem head?_dropWhile_append {cls : Char → Bool} {c : Char}
    (h : (s.dropWhile cls).head? = some c) :
    ((s ++ r).dropWhile cls).head? = some c := by
  rw [List.dropWhile_append, if_neg, head?_append_of_head? h]
  intro hnil
  rw [List.isEmpty_iff.1 hnil] at h
  cases h

theorem Leaves.front {cls : Char → Bool} (h : Leaves cls (s ++ r)) : Leaves cls s :=
  fun c hc => h c (head?_append_of_head? hc)

/-- A class that stops before the rest has taken all that there is. -/
theorem takeWhile_of_append {cls : Char → Bool} (h : (s ++ r).dropWhile cls = t ++ r) :
    takeWhile cls s = .done ((s ++ r).takeWhile cls) t := by
  have happend := List.takeWhile_append_dropWhile (p := cls) (l := s ++ r)
  rw [h, ← List.append_assoc] at happend
  have hs := List.append_cancel_right happend
  have hall : ∀ c ∈ (s ++ r).takeWhile cls, cls c := fun c => List.mem_takeWhile_imp
  have hleaves : Leaves cls t := Leaves.front (h ▸ leaves_dropWhile cls (s ++ r))
  conv_lhs => rw [← hs]
  exact takeWhile_append hall hleaves

theorem dropWhile_of_append {cls : Char → Bool} (h : (s ++ r).dropWhile cls = t ++ r) :
    s.dropWhile cls = t := (takeWhile_eq_done.1 (takeWhile_of_append h)).2.symm

/-- A text of fewer than `m` characters, and of at most `l` bytes. -/
structure Small (m l : Nat) (s : List Char) : Prop where
  length : s.length < m
  bytes : byteLength s ≤ l

theorem Small.suffix {m l : Nat} (h : Small m l s) (ht : t <:+ s) : Small m l t :=
  ⟨ht.length_le.trans_lt h.length, (byteLength_le_of_suffix ht).trans h.bytes⟩

instance : LawfulMonad Reader := .mk' Reader
  (fun p => funext fun s => by
    change (p >>= pure) s = p s
    rw [bind_apply]
    cases p s <;> rfl)
  (fun _ _ => rfl)
  (fun p f g => funext fun s => by
    rw [bind_apply, bind_apply, bind_apply]
    cases p s <;> rfl)

/-! ## Readers that only take characters off -/

/-- A reader leaves an end of its text. -/
def Forward (p : Reader α) : Prop := ∀ s a t, p s = .done a t → t <:+ s

namespace Forward

variable {p q : Reader α} {f : α → Reader β}

theorem pure (a : α) : Forward (pure a : Reader α) := fun s b t h => by
  obtain ⟨-, rfl⟩ := pure_eq_done.1 h
  exact List.suffix_rfl

theorem bind (hp : Forward p) (hf : ∀ a, Forward (f a)) : Forward (p >>= f) := fun s b t h => by
  obtain ⟨a, u, hread, h⟩ := bind_eq_done.1 h
  exact (hf a u b t h).trans (hp s a u hread)

theorem orElse (hp : Forward p) (hq : Forward q) : Forward (p <|> q) := fun s a t h => by
  rcases orElse_eq_done.1 h with h | ⟨-, h⟩
  · exact hp s a t h
  · exact hq s a t h

theorem optional (hp : Forward p) : Forward (optional p) := fun s o t h => by
  rcases optional_eq_done.1 h with ⟨a, -, h⟩ | ⟨-, -, rfl⟩
  · exact hp s a t h
  · exact List.suffix_rfl

theorem separatedRest {separator : Reader Unit} (hp : Forward p) (hs : Forward separator)
    (n : Nat) : Forward (separatedRest p separator n) := by
  induction n with
  | zero => exact .pure []
  | succ n ih =>
    intro s as t h
    rw [separatedRest_succ] at h
    split at h
    · cases h
      exact List.suffix_rfl
    · rename_i s' hsep
      split at h
      · cases h
        exact List.suffix_rfl
      · rename_i a s'' hitem
        have htail := (ih.bind fun as => .pure (a :: as)) s'' _ t h
        exact htail.trans ((hp s' a s'' hitem).trans (hs s _ s' hsep))

end Forward

/-- A reader that starts with a character of its own leaves less than there was. -/
theorem length_lt_of_char_bind {c : Char} {f : Unit → Reader α} (hf : Forward (f ()))
    (h : (char c >>= f) s = .done a t) : t.length < s.length := by
  obtain ⟨_, u, hchar, h⟩ := bind_eq_done.1 h
  rw [char_eq_done.1 hchar]
  exact Nat.lt_succ_of_le (hf u a t h).length_le

/-! ## Firm and sticky readers -/

/-- What a reader reads does not change with more text, as long as there is some text left. -/
def Firm (p : Reader α) : Prop :=
  ∀ s a t r, p s = .done a t → t ≠ [] → p (s ++ r) = .done a (t ++ r)

/-- A reader that gets stuck does so in every text cut short. -/
def Sticky (p : Reader α) : Prop := ∀ s r, Stuck p (s ++ r) → Stuck p s

theorem sticky_iff {p : Reader α} :
    Sticky p ↔ ∀ s r a t, p s = .done a t → ∃ b u, p (s ++ r) = .done b u := by
  refine ⟨fun h s r a t hread => ?_, fun h s r hstuck => ?_⟩
  · exact (done_or_stuck p (s ++ r)).resolve_right fun hstuck => (h s r hstuck).not_done hread
  · refine (done_or_stuck p s).resolve_left fun ⟨a, t, hread⟩ => ?_
    obtain ⟨b, u, hread'⟩ := h s r a t hread
    exact hstuck.not_done hread'

section

variable {p : Reader α} {f : α → Reader β} {cls : Char → Bool}

theorem Firm.bind (hp : Firm p) (fp : ∀ a, Forward (f a)) (hf : ∀ a, Firm (f a)) :
    Firm (p >>= f) := by
  intro s b t r h ht
  obtain ⟨a, u, hread, h⟩ := bind_eq_done.1 h
  have hu : u ≠ [] := by
    rintro rfl
    exact ht (List.suffix_nil.1 (fp a _ b t h))
  rw [bind_done (hp s a u r hread hu), hf a u b t r h ht]

/-- A part that is firm, before one that needs some text. -/
theorem Firm.sticky_bind (hp : Firm p) (hf : ∀ a, Sticky (f a)) (hnil : ∀ a, Stuck (f a) []) :
    Sticky (p >>= f) := by
  refine sticky_iff.2 fun s r b t h => ?_
  obtain ⟨a, u, hread, h⟩ := bind_eq_done.1 h
  have hu : u ≠ [] := by
    rintro rfl
    exact (hnil a).not_done h
  obtain ⟨c, w, h⟩ := sticky_iff.1 (hf a) u r b t h
  exact ⟨c, w, (bind_done (hp s a u r hread hu)).trans h⟩

/-- A part after which nothing can go wrong. -/
theorem Sticky.bind_done (hp : Sticky p) (hf : ∀ a s, ∃ b t, f a s = .done b t) :
    Sticky (p >>= f) := by
  refine sticky_iff.2 fun s r b t h => ?_
  obtain ⟨a, u, hread, -⟩ := bind_eq_done.1 h
  obtain ⟨a', u', hread'⟩ := sticky_iff.1 hp s r a u hread
  obtain ⟨b', t', h'⟩ := hf a' u'
  exact ⟨b', t', (Reader.bind_done hread').trans h'⟩

theorem Sticky.orElse {q : Reader α} (hp : Sticky p) (hq : Sticky q) : Sticky (p <|> q) :=
  fun s r h => stuck_orElse.2 ⟨hp s r (stuck_orElse.1 h).1, hq s r (stuck_orElse.1 h).2⟩

theorem Sticky.map {g : α → β} (hp : Sticky p) : Sticky (do return g (← p)) :=
  hp.bind_done fun _ _ => ⟨_, _, rfl⟩

theorem firm_pure (a : α) : Firm (pure a : Reader α) := fun s b t r h _ => by
  obtain ⟨rfl, rfl⟩ := pure_eq_done.1 h
  rfl

theorem firm_satisfy : Firm (satisfy cls) := fun s c t r h _ => by
  obtain ⟨rfl, hc⟩ := satisfy_eq_done.1 h
  exact satisfy_cons hc

theorem firm_char (c : Char) : Firm (char c) :=
  firm_satisfy.bind (fun _ => .pure ()) fun _ => firm_pure ()

theorem firm_takeWhile : Firm (takeWhile cls) := fun s cs t r h ht => by
  obtain ⟨rfl, rfl⟩ := takeWhile_eq_done.1 h
  have hlength : ¬(s.takeWhile cls).length = s.length := fun heq => by
    have := congrArg List.length (List.takeWhile_append_dropWhile (p := cls) (l := s))
    rw [List.length_append] at this
    exact ht (List.length_eq_zero_iff.1 (by omega))
  refine takeWhile_eq_done.2 ⟨?_, ?_⟩
  · rw [List.takeWhile_append, if_neg hlength]
  · rw [List.dropWhile_append, if_neg (by simpa using ht)]

theorem forward_takeWhile : Forward (takeWhile cls) := fun s cs t h => by
  obtain ⟨-, rfl⟩ := takeWhile_eq_done.1 h
  exact List.dropWhile_suffix cls

theorem forward_satisfy : Forward (satisfy cls) := fun s c t h => by
  obtain ⟨rfl, -⟩ := satisfy_eq_done.1 h
  exact List.suffix_cons c t

theorem forward_takeWhile1 : Forward (takeWhile1 cls) :=
  forward_satisfy.bind fun _ => forward_takeWhile.bind fun _ => .pure _

theorem forward_char (c : Char) : Forward (char c) := forward_satisfy.bind fun _ => .pure ()

theorem firm_takeWhile1 : Firm (takeWhile1 cls) :=
  firm_satisfy.bind (fun _ => forward_takeWhile.bind fun _ => .pure _) fun _ =>
    firm_takeWhile.bind (fun _ => .pure _) fun _ => firm_pure _

theorem exists_optional (p : Reader α) (s : List Char) : ∃ o t, optional p s = .done o t := by
  rcases done_or_stuck p s with ⟨a, t, h⟩ | h
  · exact ⟨some a, t, optional_done h⟩
  · exact ⟨none, s, h.optional⟩

/-- A character that is there, or that is not, does not depend on what follows the text. -/
theorem Firm.optional (hp : Firm p) (hstuck : ∀ c s r, Stuck p (c :: s) → Stuck p (c :: s ++ r)) :
    Firm (optional p) := fun s o t r h ht => by
  rcases optional_eq_done.1 h with ⟨a, rfl, ha⟩ | ⟨rfl, hs, rfl⟩
  · exact optional_done (hp s a t r ha ht)
  · obtain ⟨c, s, rfl⟩ := List.exists_cons_of_ne_nil ht
    exact (hstuck c s r hs).optional

theorem exists_separatedRest (item : Reader α) (separator : Reader Unit) (n : Nat) (s : List Char) :
    ∃ as t, separatedRest item separator n s = .done as t := by
  induction n generalizing s with
  | zero => exact ⟨[], s, rfl⟩
  | succ n ih =>
    rw [separatedRest_succ]
    split
    · exact ⟨[], s, rfl⟩
    · split
      · exact ⟨[], s, rfl⟩
      · rename_i a u _
        obtain ⟨as, t, h⟩ := ih u
        exact ⟨a :: as, t, Reader.bind_done h⟩

theorem stuck_satisfy_append (c : Char) (s r : List Char) (h : Stuck (satisfy cls) (c :: s)) :
    Stuck (satisfy cls) (c :: s ++ r) := by
  exact Leaves.stuck (leaves_cons.2 (Bool.eq_false_iff.2 fun hc => h.not_done (satisfy_cons hc)))

theorem firm_optional_satisfy : Firm (optional (satisfy cls)) :=
  firm_satisfy.optional stuck_satisfy_append

theorem firm_optional_char (c : Char) : Firm (optional (char c)) :=
  (firm_char c).optional fun d s r h =>
    (stuck_satisfy_append d s r (stuck_bind_pure.1 h)).bind _

theorem sticky_satisfy : Sticky (satisfy cls) := sticky_iff.2 fun s r c t h => by
  obtain ⟨rfl, hc⟩ := satisfy_eq_done.1 h
  exact ⟨c, t ++ r, satisfy_cons hc⟩

theorem sticky_char (c : Char) : Sticky (char c) :=
  sticky_satisfy.bind_done fun _ s => ⟨(), s, rfl⟩

theorem sticky_takeWhile1 : Sticky (takeWhile1 cls) :=
  sticky_satisfy.bind_done fun _ _ => ⟨_, _, rfl⟩

/-- After the first of some items nothing can go wrong any more. -/
theorem Sticky.separated1 {separator : Reader Unit} (hp : Sticky p) :
    Sticky (separated1 p separator) :=
  hp.bind_done fun a s => by
    obtain ⟨as, t, h⟩ := exists_separatedRest p separator s.length s
    exact ⟨a :: as, t, (Reader.bind_done (rest_apply s)).trans (Reader.bind_done h)⟩

theorem sticky_literal (w : String) : Sticky (literal w) := fun s r h =>
  stuck_literal fun hs => not_prefix_of_stuck_literal h (hs.trans (List.prefix_append s r))

end

/-! ## Reading a part -/

/-- Where `p` stops before a rest `r`, and `Q` holds of what is left, `p'` reads the same off the
    part before the rest, up to `R`. -/
structure Cut (r : List Char) (m l : Nat) (Q : List Char → Prop) (R : α → β → Prop) (p : Reader α)
    (p' : Reader β) : Prop where
  forward : Forward p
  cut : ∀ s a t, Small m l s → p (s ++ r) = .done a (t ++ r) → Q (t ++ r) →
    ∃ b, p' s = .done b t ∧ R a b

namespace Cut

variable {m l : Nat} {P Q : List Char → Prop} {R : β → γ → Prop} {p p' q q' : Reader α}
  {f : α → Reader β} {f' : α → Reader γ} {c : Char} {cls : Char → Bool}

theorem of_eq (hp : Forward p) (h : ∀ s a t, Small m l s → p (s ++ r) = .done a (t ++ r) →
    Q (t ++ r) → p' s = .done a t) : Cut r m l Q Eq p p' :=
  ⟨hp, fun s a t hs hread hQ => ⟨a, h s a t hs hread hQ, rfl⟩⟩

theorem read (h : Cut r m l Q Eq p p') (hs : Small m l s) (hread : p (s ++ r) = .done a (t ++ r))
    (hQ : Q (t ++ r)) : p' s = .done a t := by
  obtain ⟨_, h, rfl⟩ := h.cut s a t hs hread hQ
  exact h

theorem mono {R : α → β → Prop} {p' : Reader β} (h : Cut r m l P R p p') (hPQ : ∀ u, Q u → P u) :
    Cut r m l Q R p p' :=
  ⟨h.forward, fun s a t hs hread hQ => h.cut s a t hs hread (hPQ _ hQ)⟩

protected theorem pure {R : α → β → Prop} {a : α} {b : β} (h : R a b) :
    Cut r m l Q R (pure a) (pure b) where
  forward := .pure a
  cut s a' t _ hread _ := by
    obtain ⟨rfl, heq⟩ := pure_eq_done.1 hread
    rw [List.append_cancel_right heq]
    exact ⟨b, rfl, h⟩

theorem fail (p' : Reader β) {R : α → β → Prop} : Cut r m l Q R fail p' where
  forward := fun _ _ _ h => absurd h fail_ne_done
  cut := fun _ _ _ _ h => absurd h fail_ne_done

/-! ### Sequences and choices -/

/-- One thing, then another, which says how the text goes on after the first. -/
theorem bindRel {S : α → δ → Prop} {p' : Reader δ} {f' : δ → Reader γ} (hp : Cut r m l P S p p')
    (hf : ∀ a b, S a b → Cut r m l Q R (f a) (f' b)) (hforward : ∀ a, Forward (f a))
    (hP : ∀ a u b t, r <:+ t → f a u = .done b t → Q t → P u) :
    Cut r m l Q R (p >>= f) (p' >>= f') where
  forward := hp.forward.bind hforward
  cut s b t hs hread hQ := by
    obtain ⟨a, u, hp₁, hf₁⟩ := bind_eq_done.1 hread
    obtain ⟨v, rfl, ht, hv⟩ := exists_front (hforward a u b _ hf₁) (hp.forward _ a u hp₁)
    obtain ⟨a', hread', hS⟩ := hp.cut s a v hs hp₁ (hP a _ b _ (List.suffix_append t r) hf₁ hQ)
    rw [bind_done hread']
    exact (hf a a' hS).cut v b t (hs.suffix hv) hf₁ hQ

protected theorem bind (hp : Cut r m l P Eq p p') (hf : ∀ a, Cut r m l Q R (f a) (f' a))
    (hP : ∀ a u b t, r <:+ t → f a u = .done b t → Q t → P u) :
    Cut r m l Q R (p >>= f) (p' >>= f') :=
  hp.bindRel (fun a _ h => h ▸ hf a) (fun a => (hf a).forward) hP

/-- One thing that does not depend on how the text goes on, then another. -/
theorem andThen (hp : Cut r m l (fun _ => True) Eq p p') (hf : ∀ a, Cut r m l Q R (f a) (f' a)) :
    Cut r m l Q R (p >>= f) (p' >>= f') :=
  hp.bind hf fun _ _ _ _ _ _ _ => trivial

/-- One thing that takes a character, then another in a shorter text. -/
theorem strict_bind (hp : Cut r (m + 1) l (fun _ => True) Eq p p')
    (hlt : ∀ s a t, p s = .done a t → t.length < s.length)
    (hf : ∀ a, Cut r m l Q R (f a) (f' a)) : Cut r (m + 1) l Q R (p >>= f) (p' >>= f') where
  forward := hp.forward.bind fun a => (hf a).forward
  cut s b t hs hread hQ := by
    obtain ⟨a, u, hp₁, hf₁⟩ := bind_eq_done.1 hread
    obtain ⟨v, rfl, ht, hv⟩ := exists_front ((hf a).forward u b _ hf₁) (hp.forward _ a u hp₁)
    have hlength := hlt _ a _ hp₁
    rw [List.length_append, List.length_append] at hlength
    have hsmall : Small m l v := by
      have := hs.length
      exact ⟨by omega, (hs.suffix hv).bytes⟩
    rw [bind_done (hp.read hs hp₁ trivial)]
    exact (hf a).cut v b t hsmall hf₁ hQ

theorem map {R : α → γ → Prop} {p' : Reader γ} {S : β → δ → Prop} {g : α → β} {g' : γ → δ}
    (hp : Cut r m l Q R p p') (hg : ∀ a b, R a b → S (g a) (g' b)) :
    Cut r m l Q S (do return g (← p)) (do return g' (← p')) where
  forward := hp.forward.bind fun a => .pure (g a)
  cut s b t hs hread hQ := by
    obtain ⟨a, u, hp₁, hpure⟩ := bind_eq_done.1 hread
    obtain ⟨rfl, rfl⟩ := pure_eq_done.1 hpure
    obtain ⟨c, hread', hR⟩ := hp.cut s a t hs hp₁ hQ
    exact ⟨g' c, by rw [bind_done hread', pure_apply], hg a c hR⟩

/-- The first of two readers, unless it gets stuck and the second one does not. -/
theorem orElse (hp : Cut r m l Q Eq p p') (hq : Cut r m l Q Eq q q')
    (hstuck : ∀ s a t, Small m l s → Stuck p (s ++ r) → q (s ++ r) = .done a (t ++ r) →
      Stuck p' s) : Cut r m l Q Eq (p <|> q) (p' <|> q') :=
  .of_eq (hp.forward.orElse hq.forward) fun s a t hs hread hQ => by
    rcases orElse_eq_done.1 hread with hp₁ | ⟨hp₁, hq₁⟩
    · exact orElse_done (hp.read hs hp₁ hQ)
    · rw [(hstuck s a t hs hp₁ hq₁).orElse]
      exact hq.read hs hq₁ hQ

/-- A reader that is told by its first character, before others that do not start with it. -/
theorem orElse_head (hp : Cut r m l Q Eq p p') (hq : Cut r m l Q Eq q q')
    (hp' : ∀ s, s.head? ≠ some c → Stuck p' s) (hq' : ∀ s, s.head? = some c → Stuck q s) :
    Cut r m l Q Eq (p <|> q) (p' <|> q') :=
  hp.orElse hq fun s _ _ _ _ hread => hp' s fun hs =>
    (hq' (s ++ r) (head?_append_of_head? hs)).not_done hread

theorem optional (hp : Cut r m l Q Eq p p')
    (hstuck : ∀ s, Small m l s → Q (s ++ r) → Stuck p (s ++ r) → Stuck p' s) :
    Cut r m l Q Eq (optional p) (optional p') :=
  .of_eq hp.forward.optional fun s o t hs hread hQ => by
    rcases optional_eq_done.1 hread with ⟨a, rfl, hp₁⟩ | ⟨rfl, hp₁, heq⟩
    · exact optional_done (hp.read hs hp₁ hQ)
    · obtain rfl := List.append_cancel_right heq
      exact (hstuck s hs hQ hp₁).optional

/-! ### Characters -/

theorem satisfy : Cut r m l Q Eq (satisfy cls) (satisfy cls) :=
  .of_eq forward_satisfy fun s c t _ hread _ => by
    obtain ⟨heq, hc⟩ := satisfy_eq_done.1 hread
    obtain rfl : s = c :: t := List.append_cancel_right heq
    exact satisfy_cons hc

theorem char (c : Char) : Cut r m l Q Eq (char c) (char c) := satisfy.andThen fun _ => .pure rfl

theorem char_bind {f : Unit → Reader β} {f' : Unit → Reader γ}
    (hf : Cut r m l Q R (f ()) (f' ())) :
    Cut r (m + 1) l Q R (Reader.char c >>= f) (Reader.char c >>= f') :=
  (char c).strict_bind (fun s u t h => by simp [char_eq_done.1 h]) fun _ => hf

theorem anyChar : Cut r m l Q Eq anyChar anyChar := by
  have hdone {s t : List Char} {c : Char} (h : Reader.anyChar s = .done c t) : s = c :: t := by
    cases s with
    | nil => cases h
    | cons d s => cases h; rfl
  refine .of_eq (fun s c t h => ?_) fun s c t _ hread _ => ?_
  · rw [hdone h]
    exact List.suffix_cons c t
  · obtain rfl : s = c :: t := List.append_cancel_right (hdone hread)
    rfl

theorem anyChar_bind {f : Char → Reader β} {f' : Char → Reader γ}
    (hf : ∀ c, Cut r m l Q R (f c) (f' c)) :
    Cut r (m + 1) l Q R (Reader.anyChar >>= f) (Reader.anyChar >>= f') := by
  refine anyChar.strict_bind (fun s c t h => ?_) hf
  cases s with
  | nil => cases h
  | cons d s => cases h; exact Nat.lt_succ_self _

theorem literal (w : String) : Cut r m l Q Eq (literal w) (literal w) := by
  have hdone {s t : List Char} {u : Unit} (h : Reader.literal w s = .done u t) :
      s = w.toList ++ t := by
    rw [Reader.literal] at h
    split at h
    · rename_i hpre
      obtain ⟨s, rfl⟩ := List.isPrefixOf_iff_prefix.1 hpre
      cases h
      rw [List.drop_left]
    · cases h
  refine .of_eq (fun s u t h => ?_) fun s u t _ hread _ => ?_
  · rw [hdone h]
    exact List.suffix_append _ t
  · have heq := hdone hread
    rw [← List.append_assoc] at heq
    rw [List.append_cancel_right heq]
    exact literal_append w t

theorem takeWhile : Cut r m l Q Eq (takeWhile cls) (takeWhile cls) :=
  .of_eq forward_takeWhile fun s cs t _ hread _ => by
    obtain ⟨rfl, hdrop⟩ := takeWhile_eq_done.1 hread
    exact takeWhile_of_append hdrop.symm

theorem takeWhile1 : Cut r m l Q Eq (takeWhile1 cls) (takeWhile1 cls) :=
  satisfy.andThen fun _ => takeWhile.andThen fun _ => .pure rfl

/-- A mark decides between two readers, of which the one for the mark takes it. -/
theorem startsWith_bind {f : Bool → Reader β} {f' : Bool → Reader γ}
    (hf : ∀ b, Cut r m l Q R (f b) (f' b))
    (hlt : ∀ s b t, f true s = .done b t → t.length < s.length) :
    Cut r m l Q R (startsWith c >>= f) (startsWith c >>= f') where
  forward s b t h := (hf (s.head? == some c)).forward s b t h
  cut s b t hs hread hQ := by
    change f ((s ++ r).head? == some c) (s ++ r) = _ at hread
    have hsame : ((s ++ r).head? == some c) = (s.head? == some c) := by
      cases s with
      | cons d s => rfl
      | nil =>
        -- a mark that is in the rest is taken out of it
        by_contra hne
        have hmark : (([] ++ r).head? == some c) = true := by simpa using hne
        rw [hmark] at hread
        have hlength := hlt _ b _ hread
        rw [List.nil_append, List.length_append] at hlength
        omega
    rw [hsame] at hread
    exact (hf _).cut s b t hs hread hQ

/-! ### Numbers and strings -/

theorem natural (limit : Nat) : Cut r m l Q Eq (natural limit) (natural limit) := by
  have hdone {s t : List Char} {n : Nat} (h : Reader.natural limit s = .done n t) :
      (s = '0' :: t ∧ n = 0) ∨ s.head? ≠ some '0' ∧ ∃ digits,
        Reader.takeWhile1 Char.isDigit s = .done digits t ∧ digitsValue digits < limit ∧
          n = digitsValue digits := by
    rw [Reader.natural.eq_def] at h
    split at h
    · cases h
      exact .inl ⟨rfl, rfl⟩
    · rename_i hzero
      refine .inr ⟨fun hhead => hzero _ (List.eq_cons_of_mem_head? hhead), ?_⟩
      split at h
      · cases h
      · rename_i digits t' hread
        dsimp only at h
        split at h
        · rename_i hlt
          cases h
          exact ⟨digits, hread, hlt, rfl⟩
        · cases h
  refine .of_eq (fun s n t h => ?_) fun s n t hs hread _ => ?_
  · rcases hdone h with ⟨rfl, -⟩ | ⟨-, digits, hdigits, -⟩
    · exact List.suffix_cons _ t
    · exact (takeWhile1 (r := r) (m := m) (l := l) (Q := Q)).forward s digits t hdigits
  · rcases hdone hread with ⟨heq, rfl⟩ | ⟨hzero, digits, hdigits, hlt, rfl⟩
    · obtain rfl : s = '0' :: t := List.append_cancel_right heq
      rfl
    · have hdigits' := takeWhile1.read (Q := fun _ => True) hs hdigits trivial
      rw [Reader.natural.eq_def]
      split
      · exact absurd rfl hzero
      · rw [hdigits']
        exact if_pos hlt

theorem escapeSequence : Cut r m l Q Eq escapeSequence escapeSequence := by
  refine anyChar.andThen fun c => ?_
  split
  case h_7 =>
    refine anyChar.andThen fun high => anyChar.andThen fun low => ?_
    split <;> exact .pure rfl
  all_goals exact .pure rfl

/-- Readers that count down, if they agree as soon as there is something to count. -/
theorem of_succ {R : α → β → Prop} {p : Reader α} {p' : Nat → Reader β}
    (h : ∀ m, Cut r (m + 1) l Q R p (p' (m + 1))) (m : Nat) : Cut r m l Q R p (p' m) := by
  cases m with
  | zero => exact ⟨(h 0).forward, fun s a t hs => absurd hs.length (Nat.not_lt_zero _)⟩
  | succ m => exact h m

theorem quotedRest (n m : Nat) : Cut r m l Q Eq (quotedRest n) (quotedRest m) := by
  induction n generalizing m with
  | zero => exact .fail _
  | succ n ih =>
    refine of_succ (fun m => anyChar_bind fun c => ?_) m
    split
    · exact .pure rfl
    · exact escapeSequence.andThen fun cs => (ih m).map fun _ _ h => h ▸ rfl
    · exact (ih m).map fun _ _ h => h ▸ rfl

theorem forward_quotedRest (n : Nat) : Forward (Text.quotedRest n) :=
  (quotedRest (r := []) (l := 0) (Q := fun _ => True) n 0).forward

theorem le {R : α → β → Prop} {p' : Reader β} {m' : Nat} (h : Cut r m l Q R p p') (hle : m' ≤ m) :
    Cut r m' l Q R p p' :=
  ⟨h.forward, fun s a t hs => h.cut s a t ⟨hs.length.trans_le hle, hs.bytes⟩⟩

/-- The length of the text as a bound. -/
theorem length_bind {f : Nat → Reader β} {g : Nat → Reader γ} (hforward : ∀ n, Forward (f n))
    (h : ∀ n k, k < m → Cut r (k + 1) l Q R (f n) (g k)) :
    Cut r m l Q R (do f (← rest).length) (do g (← rest).length) where
  forward s b t hread := hforward s.length s b t hread
  cut s b t hs hread hQ :=
    (h (s ++ r).length s.length hs.length).cut s b t ⟨Nat.lt_succ_self _, hs.bytes⟩ hread hQ

theorem quotedString : Cut r m l Q Eq quotedString quotedString := by
  refine (char '"').andThen fun _ => length_bind (fun n => ?_) fun n k _ =>
    (quotedRest (n + 1) (k + 1)).map fun _ _ h => h ▸ rfl
  exact (forward_quotedRest (n + 1)).bind fun _ => .pure _

/-! ### Items between commas -/

section Items

variable {item item' : Reader α}

/-- What goes on when items are read after commas: nothing, or a comma comes, and an item. -/
theorem separatedRest_eq_done {n : Nat} {as : List α}
    (h : separatedRest item (Reader.char ',') n s = .done as t) : (as = [] ∧ s = t) ∨
      ∃ k u a v as', n = k + 1 ∧ s = ',' :: u ∧ item u = .done a v ∧
        separatedRest item (Reader.char ',') k v = .done as' t ∧ as = a :: as' := by
  cases n with
  | zero =>
    obtain ⟨rfl, rfl⟩ := pure_eq_done.1 h
    exact .inl ⟨rfl, rfl⟩
  | succ n =>
    rw [separatedRest_succ] at h
    split at h
    · cases h
      exact .inl ⟨rfl, rfl⟩
    · rename_i u hcomma
      split at h
      · cases h
        exact .inl ⟨rfl, rfl⟩
      · rename_i a v hitem
        obtain ⟨as', w, htail, hpure⟩ := bind_eq_done.1 h
        obtain ⟨rfl, rfl⟩ := pure_eq_done.1 hpure
        exact .inr ⟨n, u, a, v, as', rfl, char_eq_done.1 hcomma, hitem, htail, rfl⟩

theorem separatedRest_starts {n : Nat} {as : List α}
    (h : separatedRest item (Reader.char ',') n s = .done as t) : s = t ∨ ∃ u, s = ',' :: u :=
  (separatedRest_eq_done h).imp And.right fun ⟨_, u, _, _, _, _, hs, _⟩ => ⟨u, hs⟩

/-- Items after commas, where no comma follows. -/
theorem separatedRest (hcomma : ∀ u, P (',' :: u)) (hQP : ∀ u, Q u → P u)
    (hstop : ∀ u, ¬Q (',' :: u)) (n k : Nat) (hitem : Cut r (k + 1) l P Eq item item') :
    Cut r (k + 1) l Q Eq (separatedRest item (Reader.char ',') n)
      (separatedRest item' (Reader.char ',') k) := by
  have hforward (n : Nat) := hitem.forward.separatedRest (forward_char ',') n
  refine .of_eq (hforward n) fun s as t hs hread hQ => ?_
  induction n using Nat.strong_induction_on generalizing k s as with
  | h n ih =>
    rcases separatedRest_eq_done hread with ⟨rfl, heq⟩ | ⟨n, u, a, v, as', rfl, hu, ha, htail, rfl⟩
    · obtain rfl := List.append_cancel_right heq
      refine separatedRest_stop (stuck_char fun hhead => ?_)
      rw [List.eq_cons_of_mem_head? hhead] at hQ
      exact hstop _ hQ
    · have hv := hforward n v as' _ htail
      have hvu := hitem.forward u a v ha
      -- the comma is not in the rest, for the items after it leave the rest
      obtain ⟨s, rfl, rfl⟩ := exists_cons_front hu ((List.suffix_append t r).trans (hv.trans hvu))
      obtain ⟨v, rfl, -, hvs⟩ := exists_front hv hvu
      have hP : P (v ++ r) := by
        rcases separatedRest_starts htail with heq | ⟨w, hw⟩
        · exact heq ▸ hQP _ hQ
        · exact hw ▸ hcomma w
      have hs' := hs.suffix (List.suffix_cons ',' s)
      have hlength := hs.length
      have hle := hvs.length_le
      rw [List.length_cons] at hlength
      obtain ⟨k, rfl⟩ : ∃ k', k = k' + 1 := Nat.exists_eq_add_one.2 (by omega)
      exact separatedRest_step (char_cons _ _) (hitem.read hs' ha hP)
        (ih n n.lt_succ_self k (hitem.le (Nat.le_succ _)) v as'
          ⟨by omega, (hs'.suffix hvs).bytes⟩ htail)

theorem separated1 (hitem : Cut r m l P Eq item item') (hcomma : ∀ u, P (',' :: u))
    (hQP : ∀ u, Q u → P u) (hstop : ∀ u, ¬Q (',' :: u)) :
    Cut r m l Q Eq (separated1 item (Reader.char ',')) (separated1 item' (Reader.char ',')) := by
  have hforward (a : α) (n : Nat) :=
    (hitem.forward.separatedRest (forward_char ',') n).bind fun as => .pure (a :: as)
  refine hitem.bind (fun a => length_bind (hforward a) fun n k hk =>
    (separatedRest hcomma hQP hstop n k (hitem.le hk)).map fun _ _ h => h ▸ rfl) ?_
  intro a u as t _ h hQ
  obtain ⟨_, _, hrest, h⟩ := bind_eq_done.1 h
  cases hrest
  obtain ⟨as', w, htail, hpure⟩ := bind_eq_done.1 h
  obtain ⟨rfl, rfl⟩ := pure_eq_done.1 hpure
  rcases separatedRest_starts htail with rfl | ⟨w, rfl⟩
  · exact hQP _ hQ
  · exact hcomma w

/-- Items, or none where none can be read. -/
theorem separated (hitem : Cut r m l P Eq item item') (hcomma : ∀ u, P (',' :: u))
    (hQP : ∀ u, Q u → P u) (hstop : ∀ u, ¬Q (',' :: u))
    (hstuck : ∀ s, Q (s ++ r) → Stuck item' s) :
    Cut r m l Q Eq (separated item (Reader.char ',')) (separated item' (Reader.char ',')) :=
  ((separated1 hitem hcomma hQP hstop).optional fun s _ hQ _ => (hstuck s hQ).separated1).map
    fun _ _ h => h ▸ rfl

end Items

end Cut

end Offload.Text.Reader
