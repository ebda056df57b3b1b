import Offload.Proofs.Ir.Mirror
import Offload.Proofs.Ir.Pairing
import Offload.Proofs.Source.Order

/-!
# Trees that look the same

Two trees in two contexts look the same if their operations do, line by line, wherever they
stand at the same place (`Likeness.Line`). What stands at the same place is then paired
(`Counterparts.pairing`), and the contexts match on it (`Counterparts.toMatch`), provided that
the trees are secluded: all they use are values of their own and free ones, and what they
define is used inside them alone (`Secluded`).

Nothing of that depends on the handles but the order of uses, for which operations have to be
allocated in the same order.
-/

namespace Offload

open Context

/-- Sorted lists with related elements are related, if the relation is one to one and keeps
    the order. -/
theorem forall₂_of_pairwise {α β : Type} {r : α → β → Prop} {lt : α → α → Prop}
    {lt' : β → β → Prop} {l : List α} {l' : List β} (hl : l.Pairwise lt) (hl' : l'.Pairwise lt')
    (hirrefl : ∀ a, ¬lt a a) (hirrefl' : ∀ a', ¬lt' a' a')
    (hr : ∀ {a b a' b'}, r a a' → r b b' → (a = b ↔ a' = b'))
    (hlt : ∀ {a b a' b'}, r a a' → r b b' → lt a b → ¬lt' b' a')
    (hleft : ∀ a ∈ l, ∃ a' ∈ l', r a a') (hright : ∀ a' ∈ l', ∃ a ∈ l, r a a') :
    List.Forall₂ r l l' := by
  induction l generalizing l' with
  | nil =>
    cases l' with
    | nil => exact .nil
    | cons a' l' =>
      obtain ⟨a, ha, -⟩ := hright a' List.mem_cons_self
      cases ha
  | cons a l ih =>
    obtain ⟨a', ha', haa⟩ := hleft a List.mem_cons_self
    cases l' with
    | nil => cases ha'
    | cons c' l' =>
      rw [List.pairwise_cons] at hl hl'
      obtain ⟨c, hc, hcc⟩ := hright c' List.mem_cons_self
      -- the first elements are related, as the partner of neither comes first
      have heq : a = c := by
        rcases List.mem_cons.1 hc with rfl | hc
        · rfl
        rcases List.mem_cons.1 ha' with rfl | ha'
        · exact (hr haa hcc).2 rfl
        · exact absurd (hl'.1 a' ha') (hlt haa hcc (hl.1 c hc))
      subst heq
      refine .cons hcc (ih hl.2 hl'.2 (fun d hd => ?_) fun d' hd' => ?_)
      · obtain ⟨d', hd', hdd⟩ := hleft d (List.mem_cons_of_mem a hd)
        refine ⟨d', (List.mem_cons.1 hd').resolve_left fun e => ?_, hdd⟩
        exact hirrefl a ((hr hcc hdd).2 e.symm ▸ hl.1 d hd)
      · obtain ⟨d, hd, hdd⟩ := hright d' (List.mem_cons_of_mem c' hd')
        refine ⟨d, (List.mem_cons.1 hd).resolve_left fun e => ?_, hdd⟩
        exact hirrefl' c' ((hr hcc hdd).1 e.symm ▸ hl'.1 d' hd')

theorem Use.ext_iff {u w : Use} : u = w ↔ u.user = w.user ∧ u.slot = w.slot := by
  cases u; cases w; simp

/-- The pairs the other way round. -/
def Matching.symm {α : Type} (m : Matching α) : Matching α :=
  ⟨fun a b => m b a, fun ha hb => (m.iff ha hb).symm⟩

/-- One pair. -/
def Matching.single {α : Type} (a a' : α) : Matching α :=
  ⟨fun b b' => b = a ∧ b' = a', fun hb hc => iff_of_true (hb.1.trans hc.1.symm)
    (hb.2.trans hc.2.symm)⟩

/-- Everything of some kind, paired with itself. -/
def Matching.diagonal {α : Type} (p : α → Prop) : Matching α :=
  ⟨fun a a' => a = a' ∧ p a, fun ha hb => by rw [ha.1, hb.1]⟩

section

variable {α : Type} {a a' b : α} {p : α → Prop}

theorem Matching.left_single : (Matching.single a a').Left b ↔ b = a :=
  ⟨fun ⟨_, h, _⟩ => h, fun h => ⟨a', h, rfl⟩⟩

theorem Matching.right_single : (Matching.single a a').Right b ↔ b = a' :=
  ⟨fun ⟨_, _, h⟩ => h, fun h => ⟨a, rfl, h⟩⟩

theorem Matching.left_diagonal : (Matching.diagonal p).Left a ↔ p a :=
  ⟨fun ⟨_, _, h⟩ => h, fun h => ⟨a, rfl, h⟩⟩

theorem Matching.right_diagonal : (Matching.diagonal p).Right a ↔ p a :=
  ⟨fun ⟨_, e, h⟩ => e ▸ h, fun h => ⟨a, rfl, h⟩⟩

end

/-- How trees in two contexts are compared: which tops and which values correspond, and which
    types and attributes count as the same. -/
structure Likeness where
  top : Matching OpRef
  value : Matching ValueRef
  type : TypeRef → TypeRef → Prop
  attributes : Attributes → Attributes → Prop

namespace Likeness

/-- The comparison the other way round. -/
def symm (s : Likeness) : Likeness where
  top := s.top.symm
  value := s.value.symm
  type t t' := s.type t' t
  attributes as as' := s.attributes as' as

/-- Where the trees that are compared end. -/
def border (s : Likeness) (home home' : Option BlockRef) (free free' : ValueRef → Prop) :
    Border :=
  ⟨s.top.Left, home, home', free, free', s.type, s.attributes⟩

variable (s : Likeness) (ctx ctx' : Context)

/-- Blocks that look the same, up to what is in them. -/
structure Label (b b' : BlockRef) : Prop where
  argTypes : List.Forall₂ s.type (ctx.argTypesOf b) (ctx'.argTypesOf b')
  args : List.Forall₂ s.value (ctx.args b) (ctx'.args b')
  count : (ctx.opsOf b).length = (ctx'.opsOf b').length

/-- Operations that look the same, up to what is in them. -/
structure Line (o o' : OpRef) : Prop where
  kind : ctx.kindOf o = ctx'.kindOf o'
  attributes : s.attributes (ctx.attributesOf o) (ctx'.attributesOf o')
  operands : List.Forall₂ s.value (ctx.operandsOf o) (ctx'.operandsOf o')
  resultTypes : List.Forall₂ s.type (ctx.resultTypesOf o) (ctx'.resultTypesOf o')
  results : List.Forall₂ s.value (ctx.results o) (ctx'.results o')
  regions : List.Forall₂ (fun r r' => List.Forall₂ (s.Label ctx ctx') (ctx.blocksOf r)
    (ctx'.blocksOf r')) (ctx.regionsOf o) (ctx'.regionsOf o')

/-- Operations at the same place of two trees. -/
def op (o o' : OpRef) : Prop := ∃ t t', s.top t t' ∧ Twin ctx ctx' t t' o o'

/-- Regions at the same place of two trees. -/
def region (r r' : RegionRef) : Prop :=
  ∃ o o', s.op ctx ctx' o o' ∧ Position.Matched (ctx.regionsOf o) (ctx'.regionsOf o') r r'

/-- Blocks at the same place of two trees. -/
def block (b b' : BlockRef) : Prop :=
  ∃ r r', s.region ctx ctx' r r' ∧ Position.Matched (ctx.blocksOf r) (ctx'.blocksOf r') b b'

/-- Values that correspond, inside two trees. -/
def inner (v v' : ValueRef) : Prop :=
  s.value v v' ∧ ∃ t t', s.top t t' ∧ ctx.DefinedWithin t v ∧ ctx'.DefinedWithin t' v'

/-- Values that are defined at the same place of two trees. -/
inductive Source (v v' : ValueRef) : Prop
  | result {o o' : OpRef} (ho : s.op ctx ctx' o o')
    (hv : Position.Matched (ctx.results o) (ctx'.results o') v v')
  | argument {b b' : BlockRef} (hb : s.block ctx ctx' b b')
    (hv : Position.Matched (ctx.args b) (ctx'.args b') v v')

variable {s ctx ctx'}

theorem Label.symm {b b' : BlockRef} (h : s.Label ctx ctx' b b') : s.symm.Label ctx' ctx b' b :=
  ⟨h.argTypes.flip, h.args.flip, h.count.symm⟩

theorem Line.symm {o o' : OpRef} (h : s.Line ctx ctx' o o') : s.symm.Line ctx' ctx o' o where
  kind := h.kind.symm
  attributes := h.attributes
  operands := h.operands.flip
  resultTypes := h.resultTypes.flip
  results := h.results.flip
  regions := h.regions.flip.imp fun _ _ hr => hr.flip.imp fun _ _ hb => hb.symm

theorem op_symm {o o' : OpRef} (h : s.op ctx ctx' o o') : s.symm.op ctx' ctx o' o := by
  obtain ⟨t, t', ht, h⟩ := h
  exact ⟨t', t, ht, h.symm⟩

theorem region_symm {r r' : RegionRef} (h : s.region ctx ctx' r r') :
    s.symm.region ctx' ctx r' r := by
  obtain ⟨o, o', ho, h⟩ := h
  exact ⟨o', o, op_symm ho, h.symm⟩

theorem block_symm {b b' : BlockRef} (h : s.block ctx ctx' b b') :
    s.symm.block ctx' ctx b' b := by
  obtain ⟨r, r', hr, h⟩ := h
  exact ⟨r', r, region_symm hr, h.symm⟩

theorem inner_symm {v v' : ValueRef} (h : s.inner ctx ctx' v v') :
    s.symm.inner ctx' ctx v' v := by
  obtain ⟨hv, t, t', ht, h, h'⟩ := h
  exact ⟨hv, t', t, ht, h', h⟩

end Likeness

/-- The trees of some operations, compared with themselves. -/
def Likeness.diagonal (tops : OpRef → Prop) : Likeness where
  top := .diagonal tops
  value := .diagonal fun _ => True
  type := Eq
  attributes := Eq

/-- A place in a tree is its place in the same tree. -/
theorem Twin.eq {ctx : Context} {top o o' : OpRef} (h : Twin ctx ctx top top o o') : o = o' := by
  induction h with
  | top => rfl
  | inside _ hr hb ho ih =>
    subst ih
    obtain rfl := hr.eq
    obtain rfl := hb.eq
    exact ho.eq

/-- A tree that uses nothing from outside but free values, and that is not used outside. -/
structure Secluded (free : ValueRef → Prop) (ctx : Context) (t : OpRef) : Prop where
  kind : ctx.kindOf t = .func
  live : ∀ o, ctx.Within o t → ctx.isErased o = false
  operand : ∀ o, ctx.Within o t → ∀ v ∈ ctx.operandsOf o, ctx.DefinedWithin t v ∨ free v
  user : ∀ v, ctx.DefinedWithin t v → ∀ u ∈ ctx.uses.get v, ctx.Within u.user t
  outside : ∀ v, free v → ¬ctx.DefinedWithin t v

/-- Secluded trees side by side, the tops in one place. -/
structure Row (home : Option BlockRef) (root : OpRef) (free : ValueRef → Prop)
    (tops : OpRef → Prop) (ctx : Context) : Prop where
  sound : ctx.Sound
  chained : ctx.Chained
  typed : ctx.Typed
  unused : ∀ v : ValueRef, ctx.values.size ≤ v.index → ctx.uses.get v = []
  index_lt : ∀ v, free v → v.index < ctx.values.size
  hasOp : ∀ t, tops t → ctx.HasOp t
  place : ∀ t, tops t → ctx.blockOf t = home ∧ home.bind ctx.holder = some root
  secluded : ∀ t, tops t → Secluded free ctx t

namespace Row

variable {home : Option BlockRef} {root : OpRef} {free : ValueRef → Prop} {tops : OpRef → Prop}
  {ctx : Context} (h : Row home root free tops ctx)

include h

theorem above {t : OpRef} (ht : tops t) : ctx.above t = some root := by
  rw [Context.above, (h.place t ht).1]
  exact (h.place t ht).2

/-- The trees have nothing in common. -/
theorem eq_of_within {t u o : OpRef} (ht : tops t) (hu : tops u) (hot : ctx.Within o t)
    (hou : ctx.Within o u) : t = u := by
  rcases hot.total hou with hw | hw
  · exact h.sound.grounded.eq_of_siblings (h.above ht) (h.above hu) hw
  · exact (h.sound.grounded.eq_of_siblings (h.above hu) (h.above ht) hw).symm

theorem eq_of_definedWithin {t u : OpRef} {v : ValueRef} (ht : tops t) (hu : tops u)
    (hvt : ctx.DefinedWithin t v) (hvu : ctx.DefinedWithin u v) : t = u := by
  obtain ⟨p, hp, hpt⟩ := hvt
  obtain ⟨q, hq, hqu⟩ := hvu
  obtain rfl := Option.some.inj (hp.symm.trans hq)
  exact h.eq_of_within ht hu hpt hqu

end Row

/-- What is in an extent is in some trees. -/
structure Extent.Inside (x : Extent) (ctx : Context) (tops : OpRef → Prop) : Prop where
  op : ∀ o, x.op o → ∃ t, tops t ∧ ctx.Within o t
  region : ∀ r, x.region r → ∃ o, x.op o ∧ r ∈ ctx.regionsOf o
  block : ∀ b, x.block b → ∃ r, x.region r ∧ b ∈ ctx.blocksOf r
  value : ∀ v, x.value v → ∃ t, tops t ∧ ctx.DefinedWithin t v

namespace Row

variable {home : Option BlockRef} {root : OpRef} {free : ValueRef → Prop} {all : OpRef → Prop}
  {ctx : Context} (h : Row home root free all ctx) {tops others : OpRef → Prop} {x y : Extent}

include h

/-- What is in different trees has nothing in common. -/
theorem apart (htops : ∀ t, tops t → all t) (hothers : ∀ t, others t → all t)
    (hne : ∀ t, tops t → ¬others t) (hx : x.Inside ctx tops) (hy : y.Inside ctx others) :
    x.Apart y := by
  have hc := h.sound.coherent
  have hop (o : OpRef) (ho : x.op o) : ¬y.op o := fun ho' => by
    obtain ⟨t, ht, hot⟩ := hx.op o ho
    obtain ⟨u, hu, hou⟩ := hy.op o ho'
    obtain rfl := h.eq_of_within (htops t ht) (hothers u hu) hot hou
    exact hne t ht hu
  have hregion (r : RegionRef) (hr : x.region r) : ¬y.region r := fun hr' => by
    obtain ⟨o, ho, hm⟩ := hx.region r hr
    obtain ⟨p, hp, hm'⟩ := hy.region r hr'
    obtain rfl := hc.regions.owner_unique hm hm'
    exact hop o ho hp
  refine ⟨hop, fun b hb hb' => ?_, hregion, fun v hv hv' => ?_⟩
  · obtain ⟨r, hr, hm⟩ := hx.block b hb
    obtain ⟨q, hq, hm'⟩ := hy.block b hb'
    obtain rfl := hc.blocks.owner_unique hm hm'
    exact hregion r hr hq
  · obtain ⟨t, ht, hvt⟩ := hx.value v hv
    obtain ⟨u, hu, hvu⟩ := hy.value v hv'
    obtain rfl := h.eq_of_definedWithin (htops t ht) (hothers u hu) hvt hvu
    exact hne t ht hu

/-- The root is in none of the trees. -/
theorem root_outside (htops : ∀ t, tops t → all t) (hx : x.Inside ctx tops) : ¬x.op root := by
  intro hroot
  obtain ⟨t, ht, hw⟩ := hx.op root hroot
  exact h.sound.grounded.not_within_above (h.above (htops t ht)) hw

end Row

/-- Trees in two contexts that look the same, and were allocated in the same order. -/
structure Counterparts (s : Likeness) (home home' : Option BlockRef) (root root' : OpRef)
    (free free' : ValueRef → Prop) (ctx ctx' : Context) : Prop where
  left : Row home root free s.top.Left ctx
  right : Row home' root' free' s.top.Right ctx'
  line : ∀ {o o'}, s.op ctx ctx' o o' → s.Line ctx ctx' o o'
  order : ∀ {t t' o o' q q'}, s.top t t' → Twin ctx ctx' t t' o o' → Twin ctx ctx' t t' q q' →
    (o.index < q.index ↔ o'.index < q'.index)

namespace Counterparts

variable {s : Likeness} {home home' : Option BlockRef} {root root' : OpRef}
  {free free' : ValueRef → Prop} {ctx ctx' : Context}

theorem symm (h : Counterparts s home home' root root' free free' ctx ctx') :
    Counterparts s.symm home' home root' root free' free ctx' ctx where
  left := h.right
  right := h.left
  line ho := (h.line (Likeness.op_symm ho)).symm
  order ht ho hq := (h.order ht ho.symm hq.symm).symm

/-- Trees look like themselves. -/
theorem diagonal {tops : OpRef → Prop} (h : Row home root free tops ctx) :
    Counterparts (.diagonal tops) home home root root free free ctx ctx := by
  have heq {o o' : OpRef} (ho : (Likeness.diagonal tops).op ctx ctx o o') : o = o' := by
    obtain ⟨t, _, ⟨rfl, -⟩, ho⟩ := ho
    exact ho.eq
  have hvalues (vs : List ValueRef) :
      List.Forall₂ (Likeness.diagonal tops).value vs vs :=
    List.forall₂_same.2 fun v _ => ⟨rfl, trivial⟩
  have htypes (ts : List TypeRef) : List.Forall₂ (Likeness.diagonal tops).type ts ts :=
    List.forall₂_same.2 fun t _ => rfl
  have hleft : (Likeness.diagonal tops).top.Left = tops :=
    funext fun _ => propext Matching.left_diagonal
  have hright : (Likeness.diagonal tops).top.Right = tops :=
    funext fun _ => propext Matching.right_diagonal
  refine ⟨by rwa [hleft], by rwa [hright], fun {o o'} ho => ?_, ?_⟩
  · obtain rfl := heq ho
    exact ⟨rfl, rfl, hvalues _, htypes _, hvalues _, List.forall₂_same.2 fun r _ =>
      List.forall₂_same.2 fun b _ => ⟨htypes _, hvalues _, rfl⟩⟩
  · rintro t _ o o' q q' ⟨rfl, -⟩ ho hq
    rw [ho.eq, hq.eq]

/-! ## What is paired -/

section

variable (h : Counterparts s home home' root root' free free' ctx ctx')

include h

theorem op_unique {o o' q' : OpRef} (ho : s.op ctx ctx' o o') (hq : s.op ctx ctx' o q') :
    o' = q' := by
  obtain ⟨t, t', ht, ho⟩ := ho
  obtain ⟨u, u', hu, hq⟩ := hq
  have hc := h.left.sound.coherent
  obtain rfl := h.left.eq_of_within ⟨t', ht⟩ ⟨u', hu⟩ (ho.within hc) (hq.within hc)
  obtain rfl := (s.top.iff ht hu).1 rfl
  exact ho.symm.unique h.left.sound hq.symm

theorem region_unique {r r' q' : RegionRef} (hr : s.region ctx ctx' r r')
    (hq : s.region ctx ctx' r q') : r' = q' := by
  obtain ⟨o, o', ho, hr⟩ := hr
  obtain ⟨p, p', hp, hq⟩ := hq
  have hc := h.left.sound.coherent
  obtain rfl := hc.regions.owner_unique hr.mem.1 hq.mem.1
  obtain rfl := h.op_unique ho hp
  exact hr.symm.unique hq.symm (hc.regions.nodup _)

theorem block_unique {b b' q' : BlockRef} (hb : s.block ctx ctx' b b')
    (hq : s.block ctx ctx' b q') : b' = q' := by
  obtain ⟨r, r', hr, hb⟩ := hb
  obtain ⟨p, p', hp, hq⟩ := hq
  have hc := h.left.sound.coherent
  obtain rfl := hc.blocks.owner_unique hb.mem.1 hq.mem.1
  obtain rfl := h.region_unique hr hp
  exact hb.symm.unique hq.symm (hc.blocks.nodup _)

end

/-- What stands at the same place is paired. -/
def pairing (h : Counterparts s home home' root root' free free' ctx ctx') : Pairing where
  op := ⟨s.op ctx ctx', fun ho hq => ⟨fun e => h.op_unique ho (e ▸ hq),
    fun e => h.symm.op_unique (Likeness.op_symm ho) (e ▸ Likeness.op_symm hq)⟩⟩
  region := ⟨s.region ctx ctx', fun hr hq => ⟨fun e => h.region_unique hr (e ▸ hq),
    fun e => h.symm.region_unique (Likeness.region_symm hr) (e ▸ Likeness.region_symm hq)⟩⟩
  block := ⟨s.block ctx ctx', fun hb hq => ⟨fun e => h.block_unique hb (e ▸ hq),
    fun e => h.symm.block_unique (Likeness.block_symm hb) (e ▸ Likeness.block_symm hq)⟩⟩
  value := ⟨s.inner ctx ctx', fun hv hw => s.value.iff hv.1 hw.1⟩

theorem inside_left (h : Counterparts s home home' root root' free free' ctx ctx') :
    h.pairing.leftPart.Inside ctx s.top.Left where
  op := fun _ ⟨_, t, t', ht, ho⟩ => ⟨t, ⟨t', ht⟩, ho.within h.left.sound.coherent⟩
  region := fun _ ⟨_, o, o', ho, hr⟩ => ⟨o, ⟨o', ho⟩, hr.mem.1⟩
  block := fun _ ⟨_, r, r', hr, hb⟩ => ⟨r, ⟨r', hr⟩, hb.mem.1⟩
  value := fun _ ⟨_, _, t, t', ht, hv, _⟩ => ⟨t, ⟨t', ht⟩, hv⟩

theorem inside_right (h : Counterparts s home home' root root' free free' ctx ctx') :
    h.pairing.rightPart.Inside ctx' s.top.Right where
  op := fun _ ⟨_, t, t', ht, ho⟩ => ⟨t', ⟨t, ht⟩, ho.symm.within h.right.sound.coherent⟩
  region := fun _ ⟨_, o, o', ho, hr⟩ => ⟨o', ⟨o, ho⟩, hr.mem.2⟩
  block := fun _ ⟨_, r, r', hr, hb⟩ => ⟨r', ⟨r, hr⟩, hb.mem.2⟩
  value := fun _ ⟨_, _, t, t', ht, _, hv⟩ => ⟨t', ⟨t, ht⟩, hv⟩

/-! ## Nothing is left out -/

section

variable (h : Counterparts s home home' root root' free free' ctx ctx')

include h

/-- What is in one tree has something at the same place of the other one. -/
theorem exists_twin {t t' z : OpRef} (ht : s.top t t') (hz : ctx.Within z t) :
    ∃ z', Twin ctx ctx' t t' z z' := by
  induction hz using Relation.ReflTransGen.head_induction_on with
  | refl => exact ⟨t', .top⟩
  | @head z y hy _ ih =>
    obtain ⟨y', hyy⟩ := ih
    have hc := h.left.sound.coherent
    obtain ⟨b, r, hb, hr, ho⟩ := above_eq_some_iff.1 hy
    have hregions := (h.line ⟨t, t', ht, hyy⟩).regions
    obtain ⟨r', hrr, hblocks⟩ :=
      Position.Matched.of_forall₂ hregions.flip ((hc.regions.owner_iff r y).1 ho)
    obtain ⟨b', hbb, hlabel⟩ :=
      Position.Matched.of_forall₂ (List.Forall₂.flip hblocks) ((hc.blocks.owner_iff b r).1 hr)
    obtain ⟨n, hn, rfl⟩ := List.mem_iff_getElem.1 ((hc.ops.owner_iff z b).1 hb)
    have hlength : n < (ctx'.opsOf b').length := hlabel.count ▸ hn
    exact ⟨_, hyy.inside hrr.symm hbb.symm
      ⟨n, List.getElem?_eq_getElem hn, List.getElem?_eq_getElem hlength⟩⟩

/-- What is below an operation has the same places. -/
theorem region_of_mem {o o' : OpRef} (ho : s.op ctx ctx' o o') :
    List.Forall₂ (s.region ctx ctx') (ctx.regionsOf o) (ctx'.regionsOf o') :=
  (Position.Matched.forall₂ (h.line ho).regions.length_eq).imp fun _ _ hr => ⟨o, o', ho, hr⟩

theorem blocks {r r' : RegionRef} (hr : s.region ctx ctx' r r') :
    List.Forall₂ (s.Label ctx ctx') (ctx.blocksOf r) (ctx'.blocksOf r') := by
  obtain ⟨o, o', ho, hr⟩ := hr
  exact hr.rel (h.line ho).regions

theorem block_of_mem {r r' : RegionRef} (hr : s.region ctx ctx' r r') :
    List.Forall₂ (s.block ctx ctx') (ctx.blocksOf r) (ctx'.blocksOf r') :=
  (Position.Matched.forall₂ (h.blocks hr).length_eq).imp fun _ _ hb => ⟨r, r', hr, hb⟩

theorem label {b b' : BlockRef} (hb : s.block ctx ctx' b b') : s.Label ctx ctx' b b' := by
  obtain ⟨r, r', hr, hb⟩ := hb
  exact hb.rel (h.blocks hr)

theorem op_of_mem {b b' : BlockRef} (hb : s.block ctx ctx' b b') :
    List.Forall₂ (s.op ctx ctx') (ctx.opsOf b) (ctx'.opsOf b') := by
  refine (Position.Matched.forall₂ (h.label hb).count).imp fun z z' hz => ?_
  obtain ⟨r, r', ⟨o, o', ⟨t, t', ht, ho⟩, hr⟩, hb⟩ := hb
  exact ⟨t, t', ht, ho.inside hr hb hz⟩

/-- What is defined in one tree corresponds to something that is defined in the other one, in
    the same way. -/
theorem exists_inner {t t' : OpRef} {v : ValueRef} (ht : s.top t t')
    (hv : ctx.DefinedWithin t v) : ∃ v', s.inner ctx ctx' v v' ∧ s.Source ctx ctx' v v' := by
  have hc := h.left.sound.coherent
  have hc' := h.right.sound.coherent
  obtain ⟨z, hz, hw⟩ := hv
  obtain ⟨z', hzz⟩ := h.exists_twin ht hw
  have hop : s.op ctx ctx' z z' := ⟨t, t', ht, hzz⟩
  have hw' := hzz.symm.within hc'
  have hv := hz
  rw [definer] at hz
  split at hz
  · rename_i o n hsource
    obtain rfl := Option.some.inj hz
    obtain ⟨v', hm, hvv⟩ := Position.Matched.of_forall₂ (h.line hop).results.flip
      ((mem_results_iff hc).2 ⟨n, hsource⟩)
    exact ⟨v', ⟨hvv, t, t', ht, ⟨_, hv, hw⟩, z', definer_of_mem_results hc' hm.mem.1, hw'⟩,
      .result hop hm.symm⟩
  · rename_i b n hsource
    obtain ⟨r, hr, ho⟩ := Option.bind_eq_some_iff.1 hz
    obtain ⟨r', hr', hrr⟩ := Outcome.exists_of_mem_left (h.region_of_mem hop)
      ((hc.regions.owner_iff r z).1 ho)
    obtain ⟨b', hb', hbb⟩ := Outcome.exists_of_mem_left (h.block_of_mem hrr)
      ((hc.blocks.owner_iff b r).1 hr)
    obtain ⟨v', hm, hvv⟩ := Position.Matched.of_forall₂ (h.label hbb).args.flip
      ((mem_args_iff hc).2 ⟨n, hsource⟩)
    have hv' := (definer_of_mem_args hc' hm.mem.1).trans (hc'.holder_of_mem hr' hb')
    exact ⟨v', ⟨hvv, t, t', ht, ⟨z, hv, hw⟩, z', hv', hw'⟩, .argument hbb hm.symm⟩
  · cases hz

theorem source {v v' : ValueRef} (hv : s.inner ctx ctx' v v') : s.Source ctx ctx' v v' := by
  obtain ⟨hvv, t, t', ht, hw, -⟩ := hv
  obtain ⟨w', hw', hsource⟩ := h.exists_inner ht hw
  obtain rfl := (s.value.iff hvv hw'.1).1 rfl
  exact hsource

/-- Operands that correspond are both from inside, or both from outside. -/
theorem operand {o o' : OpRef} {v v' : ValueRef} (ho : s.op ctx ctx' o o')
    (hv : v ∈ ctx.operandsOf o) (hv' : v' ∈ ctx'.operandsOf o') (hvv : s.value v v') :
    s.inner ctx ctx' v v' ∨ free v ∧ free' v' := by
  obtain ⟨t, t', ht, ho⟩ := ho
  have hleft := (h.left.secluded t ⟨t', ht⟩).operand o (ho.within h.left.sound.coherent) v hv
  have hright := (h.right.secluded t' ⟨t, ht⟩).operand o'
    (ho.symm.within h.right.sound.coherent) v' hv'
  rcases hleft with hw | hfree
  · obtain ⟨w', hw', -⟩ := h.exists_inner ht hw
    obtain rfl := (s.value.iff hvv hw'.1).1 rfl
    exact .inl hw'
  rcases hright with hw' | hfree'
  · obtain ⟨w, hw, -⟩ := h.symm.exists_inner ht hw'
    obtain rfl := (s.value.iff hvv hw.1).2 rfl
    exact .inl (Likeness.inner_symm hw)
  · exact .inr ⟨hfree, hfree'⟩

/-- A use of a value has one at the same place of the other tree. -/
theorem exists_use {t t' : OpRef} {v v' : ValueRef} (ht : s.top t t') (hvv : s.value v v')
    (hv : ctx.DefinedWithin t v) {u : Use} (hu : u ∈ ctx.uses.get v) :
    ∃ u' ∈ ctx'.uses.get v', Twin ctx ctx' t t' u.user u'.user ∧ u.slot = u'.slot := by
  have hc := h.left.sound.coherent
  have hw := (h.left.secluded t ⟨t', ht⟩).user v hv u hu
  obtain ⟨z', hz⟩ := h.exists_twin ht hw
  have hlive := (h.left.secluded t ⟨t', ht⟩).live u.user hw
  have hlive' := (h.right.secluded t' ⟨t, ht⟩).live z' (hz.symm.within h.right.sound.coherent)
  refine ⟨⟨z', u.slot⟩, (h.right.sound.coherent.uses.mem_iff _ _).2 ?_, hz, rfl⟩
  have hheld := (hc.uses.mem_iff v u).1 hu
  rw [heldBy_eq, hlive, if_neg Bool.false_ne_true] at hheld
  rw [heldBy_eq, hlive', if_neg Bool.false_ne_true]
  have hrel := forall₂_getElem? (h.line ⟨t, t', ht, hz⟩).operands u.slot
  rw [hheld] at hrel
  obtain ⟨w', hw', hvw⟩ := rel_some_left hrel
  obtain rfl := (s.value.iff hvv hvw).1 rfl
  exact hw'

theorem uses {v v' : ValueRef} (hv : s.inner ctx ctx' v v') :
    List.Forall₂ h.pairing.Use (ctx.uses.get v) (ctx'.uses.get v') := by
  obtain ⟨hvv, t, t', ht, hw, hw'⟩ := hv
  have hirrefl (u : Use) : ¬u.Before u := by
    rintro (hlt | ⟨-, hlt⟩) <;> exact Nat.lt_irrefl _ hlt
  have hr {u w u' w' : Use} (hu : Twin ctx ctx' t t' u.user u'.user ∧ u.slot = u'.slot)
      (hw : Twin ctx ctx' t t' w.user w'.user ∧ w.slot = w'.slot) :
      (u.user = w.user ↔ u'.user = w'.user) :=
    ⟨fun e => hu.1.symm.unique h.left.sound (e ▸ hw.1.symm),
      fun e => hu.1.unique h.right.sound (e ▸ hw.1)⟩
  refine (forall₂_of_pairwise (r := fun u u' => Twin ctx ctx' t t' u.user u'.user ∧
    u.slot = u'.slot) (h.left.chained.sorted v) (h.right.chained.sorted v') hirrefl hirrefl
      (fun hu hw => ?_) (fun hu hw hlt hlt' => ?_) (fun u hu => h.exists_use ht hvv hw hu)
      fun u' hu' => ?_).imp fun u u' hu => ⟨⟨t, t', ht, hu.1⟩, hu.2⟩
  · rw [Use.ext_iff, Use.ext_iff, hr hu hw, hu.2, hw.2]
  · have hiff := hr hu hw
    have horder := h.order ht hu.1 hw.1
    rcases hlt with hlt | ⟨heq, hlt⟩ <;> rcases hlt' with hlt' | ⟨heq', hlt'⟩
    · exact Nat.lt_asymm (horder.1 hlt) hlt'
    · exact Nat.lt_irrefl _ (heq' ▸ horder.1 hlt)
    · exact Nat.lt_irrefl _ (hiff.1 heq ▸ hlt')
    · rw [← hu.2, ← hw.2] at hlt'
      exact Nat.lt_asymm hlt hlt'
  · obtain ⟨u, hu, hz, hslot⟩ := h.symm.exists_use ht hvv hw' hu'
    exact ⟨u, hu, hz.symm, hslot.symm⟩

/-- Values that correspond have the same type. -/
theorem type {v v' : ValueRef} (hv : s.inner ctx ctx' v v') : ∃ row row',
    ctx.value v = .ok row ∧ ctx'.value v' = .ok row' ∧ s.type row.type row'.type := by
  have hc := h.left.sound.coherent
  have hc' := h.right.sound.coherent
  have hrow {c : Context} {w : ValueRef} {d : ValueDef} (hd : c.sourceOf w = some d) :
      ∃ row, c.value w = .ok row ∧ row.source = d := by
    obtain ⟨row, hrow, hsource⟩ := Option.map_eq_some_iff.1 hd
    exact ⟨row, value_eq_ok.2 hrow, hsource⟩
  cases h.source hv with
  | @result o o' ho hm =>
    obtain ⟨n, hn, hn'⟩ := hm
    obtain ⟨row, hrow₁, hsource⟩ := hrow ((hc.values.result_iff o n v).1 hn)
    obtain ⟨row', hrow₁', hsource'⟩ := hrow ((hc'.values.result_iff o' n v').1 hn')
    refine ⟨row, row', hrow₁, hrow₁', ?_⟩
    exact Position.Matched.rel ⟨n, h.left.typed.result v row o n hrow₁ hsource,
      h.right.typed.result v' row' o' n hrow₁' hsource'⟩ (h.line ho).resultTypes
  | @argument b b' hb hm =>
    obtain ⟨n, hn, hn'⟩ := hm
    obtain ⟨row, hrow₁, hsource⟩ := hrow ((hc.values.argument_iff b n v).1 hn)
    obtain ⟨row', hrow₁', hsource'⟩ := hrow ((hc'.values.argument_iff b' n v').1 hn')
    refine ⟨row, row', hrow₁, hrow₁', ?_⟩
    exact Position.Matched.rel ⟨n, h.left.typed.argument v row b n hrow₁ hsource,
      h.right.typed.argument v' row' b' n hrow₁' hsource'⟩ (h.label hb).argTypes

/-- The tops are in the places where trees are secluded. -/
theorem placed {o o' : OpRef} (ho : s.op ctx ctx' o o') :
    h.pairing.Place (s.border home home' free free') o (ctx.blockOf o) (ctx'.blockOf o') := by
  have hc := h.left.sound.coherent
  obtain ⟨t, t', ht, hoo⟩ := ho
  constructor
  · rintro ⟨o'', htop⟩
    obtain rfl := h.left.eq_of_within ⟨o'', htop⟩ ⟨t', ht⟩ (.refl o) (hoo.within hc)
    obtain rfl := h.op_unique ⟨o, t', ht, hoo⟩ ⟨o, t', ht, .top⟩
    exact ⟨(h.left.place o ⟨o', ht⟩).1, (h.right.place o' ⟨o, ht⟩).1⟩
  · intro hnot
    cases hoo with
    | top => exact absurd ⟨_, ht⟩ hnot
    | inside hy hr hb hz =>
      rw [(hc.ops.owner_iff _ _).2 hz.mem.1,
        (h.right.sound.coherent.ops.owner_iff _ _).2 hz.mem.2]
      exact .some ⟨_, _, ⟨_, _, ⟨t, t', ht, hy⟩, hr⟩, hb⟩

/-- Nothing in a tree is a top. -/
theorem not_top {b b' : BlockRef} {o : OpRef} (hb : s.block ctx ctx' b b')
    (ho : o ∈ ctx.opsOf b) : ¬s.top.Left o := by
  intro htop
  have hc := h.left.sound.coherent
  obtain ⟨r, r', ⟨y, y', ⟨t, t', ht, hy⟩, hr⟩, hb⟩ := hb
  have habove := (hc.above_of_mem ho).trans (hc.holder_of_mem hr.mem.1 hb.mem.1)
  rw [h.left.above htop] at habove
  obtain rfl := Option.some.inj habove
  exact h.left.sound.grounded.not_within_above (h.left.above ⟨t', ht⟩) (hy.within hc)

end

/-- Contexts match on trees that look the same. -/
theorem toMatch (h : Counterparts s home home' root root' free free' ctx ctx') :
    Match (s.border home home' free free') h.pairing ctx ctx' where
  top {t} ht := by
    obtain ⟨t', ht⟩ := ht
    exact ⟨t', t, t', ht, .top⟩
  op {o o'} ho := by
    have hplace := h.placed ho
    have hline := h.line ho
    have hregions := h.region_of_mem ho
    have ho₀ := ho
    obtain ⟨t, t', ht, hoo⟩ := ho
    have hw := hoo.within h.left.sound.coherent
    have hw' := hoo.symm.within h.right.sound.coherent
    have hresults : List.Forall₂ (s.inner ctx ctx') (ctx.results o) (ctx'.results o') :=
      (Position.forall₂_mem hline.results).imp fun v v' ⟨hv, hv', hvv⟩ => ⟨hvv, t, t', ht,
        ⟨o, definer_of_mem_results h.left.sound.coherent hv, hw⟩,
        o', definer_of_mem_results h.right.sound.coherent hv', hw'⟩
    have hoperands : List.Forall₂ (h.pairing.Operand (s.border home home' free free'))
        (ctx.operandsOf o) (ctx'.operandsOf o') :=
      (Position.forall₂_mem hline.operands).imp fun v v' ⟨hv, hv', hvv⟩ =>
        h.operand ho₀ hv hv' hvv
    obtain ⟨row, hrow⟩ := hasOp_iff.1
      (h.left.sound.coherent.hasOp_of_within' hw (h.left.hasOp t ⟨t', ht⟩))
    obtain ⟨row', hrow'⟩ := hasOp_iff.1
      (h.right.sound.coherent.hasOp_of_within' hw' (h.right.hasOp t' ⟨t, ht⟩))
    have hlive := (h.left.secluded t ⟨t', ht⟩).live o hw
    have hlive' := (h.right.secluded t' ⟨t, ht⟩).live o' hw'
    obtain ⟨hkind, hattributes, -, htypes, -, -⟩ := hline
    have hfunc (htop : s.top.Left o) : ctx.kindOf o = .func := (h.left.secluded o htop).kind
    simp only [results_eq_readOp, isErased_eq_readOp, readOp_of_op hrow, readOp_of_op hrow']
      at hkind hattributes hoperands htypes hregions hfunc hresults hlive hlive' hplace
    exact ⟨row, row', hrow, hrow', ⟨hkind, hattributes, hoperands, htypes, hregions⟩, hfunc,
      hresults.imp fun _ _ hv _ => hv, hlive.trans hlive'.symm, hplace⟩
  block {b b'} hb := by
    have hops := (Position.forall₂_mem (h.op_of_mem hb)).imp fun z z' hz =>
      (⟨hz.2.2, h.not_top hb hz.1⟩ : h.pairing.Inner (s.border home home' free free') z z')
    obtain ⟨hargTypes, hargs, -⟩ := h.label hb
    have hb₀ := hb
    obtain ⟨r, r', hr, hm⟩ := hb
    have hr₀ := hr
    obtain ⟨y, y', ⟨t, t', ht, hy⟩, hrm⟩ := hr
    have hc := h.left.sound.coherent
    have hc' := h.right.sound.coherent
    have hinner := (Position.forall₂_mem hargs).imp fun v v' ⟨hv, hv', hvv⟩ =>
      (⟨hvv, t, t', ht,
        ⟨y, (definer_of_mem_args hc hv).trans (hc.holder_of_mem hrm.mem.1 hm.mem.1), hy.within hc⟩,
        y', (definer_of_mem_args hc' hv').trans (hc'.holder_of_mem hrm.mem.2 hm.mem.2),
        hy.symm.within hc'⟩ : s.inner ctx ctx' v v')
    have howner := (hc.blocks.owner_iff b r).2 hm.mem.1
    have howner' := (hc'.blocks.owner_iff b' r').2 hm.mem.2
    obtain ⟨row, hrow⟩ := hasBlock_iff.1 (hc.hasBlock_of_mem hm.mem.1)
    obtain ⟨row', hrow'⟩ := hasBlock_iff.1 (hc'.hasBlock_of_mem hm.mem.2)
    simp only [args_eq_readBlock, readBlock_of_block hrow, readBlock_of_block hrow']
      at hops hargTypes hinner howner howner'
    refine ⟨row, row', hrow, hrow', hargTypes, hinner, hops, ?_⟩
    rw [howner, howner']
    exact .some hr₀
  region {r r'} hr := by
    have hblocks := h.block_of_mem hr
    obtain ⟨o, o', ho, hm⟩ := hr
    have hc := h.left.sound.coherent
    have hc' := h.right.sound.coherent
    have howner := (hc.regions.owner_iff r o).2 hm.mem.1
    have howner' := (hc'.regions.owner_iff r' o').2 hm.mem.2
    obtain ⟨row, hrow⟩ := hasRegion_iff.1 (hc.hasRegion_of_mem hm.mem.1)
    obtain ⟨row', hrow'⟩ := hasRegion_iff.1 (hc'.hasRegion_of_mem hm.mem.2)
    simp only [readRegion_of_region hrow, readRegion_of_region hrow'] at hblocks howner howner'
    refine ⟨row, row', hrow, hrow', hblocks, ?_⟩
    rw [howner, howner']
    exact .some ho
  value hv := h.type hv
  uses hv := h.uses hv
  free {v} hv := ⟨h.left.index_lt v hv, fun ⟨_, _, t, t', ht, hw, _⟩ =>
    (h.left.secluded t ⟨t', ht⟩).outside v hv hw⟩
  free' {v'} hv' := ⟨h.right.index_lt v' hv', fun ⟨_, _, t, t', ht, _, hw⟩ =>
    (h.right.secluded t' ⟨t, ht⟩).outside v' hv' hw⟩
  unused {v} := h.left.unused v
  unused' {v} := h.right.unused v

end Counterparts

end Offload
