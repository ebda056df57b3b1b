import Offload.Proofs.Source.Isomorphic
import Offload.Proofs.Source.Levels

/-!
# Quoting in step

Two programs are quoted in step if what the one lists, row by row, is related to what the other
lists (`InStep`): related operations say the same in their lines and list related regions, those
list related blocks, and those related operations. Then both runs name related values at the same
time (`Naming.Paired`), so the terms differ in nothing but the places in the texts that they came
from (`InStep.opWithin`), and these are not printed (`InStep.print_eq`).

The relation is a bisimulation; nothing is asked of the contexts beyond the rows, but that the two
trees end.
-/

namespace Offload

open Context

namespace Naming

/-- The names given out so far are those of paired values, and the same. -/
structure Paired (m : Matching ValueRef) (ν ν' : Naming) : Prop where
  names : List.Forall₂ (fun e e' => m e.1 e'.1 ∧ e.2 = e'.2) ν.names ν'.names
  nextValue : ν.nextValue = ν'.nextValue
  nextBlock : ν.nextBlock = ν'.nextBlock

namespace Paired

variable {m : Matching ValueRef} {ν ν' : Naming} {v v' : ValueRef}

theorem label (h : Paired m ν ν') : Paired m ν.label ν'.label :=
  ⟨h.names, h.nextValue, congrArg (· + 1) h.nextBlock⟩

theorem next (h : Paired m ν ν') (hv : m v v') : Paired m (ν.next v) (ν'.next v') :=
  ⟨.cons ⟨hv, h.nextValue⟩ h.names, congrArg (· + 1) h.nextValue, h.nextBlock⟩

theorem lookup (h : Paired m ν ν') (hv : m v v') :
    ν.names.lookup v = ν'.names.lookup v' := by
  have hnames := h.names
  clear h
  generalize ν.names = l at hnames
  generalize ν'.names = l' at hnames
  induction hnames with
  | nil => rfl
  | @cons e e' l l' he _ ih =>
    rw [List.lookup_cons, List.lookup_cons, ih, he.2]
    have hiff := m.iff hv he.1
    by_cases hve : v = e.1
    · rw [hiff.1 hve, hve, beq_self_eq_true, beq_self_eq_true]
    · rw [beq_false_of_ne hve, beq_false_of_ne fun e => hve (hiff.2 e)]

/-- What is not paired has no name. -/
theorem lookup_left (h : Paired m ν ν') (hv : ¬m.Left v) : ν.names.lookup v = none := by
  refine List.lookup_eq_none_iff.2 fun e he => bne_iff_ne.2 ?_
  rintro rfl
  obtain ⟨e', -, hp, -⟩ := Outcome.exists_of_mem_left h.names he
  exact hv ⟨e'.1, hp⟩

theorem lookup_right (h : Paired m ν ν') (hv : ¬m.Right v) : ν'.names.lookup v = none := by
  refine List.lookup_eq_none_iff.2 fun e he => bne_iff_ne.2 ?_
  rintro rfl
  obtain ⟨e', -, hp, -⟩ := Outcome.exists_of_mem_right h.names he
  exact hv ⟨e'.1, hp⟩

end Paired

end Naming

namespace Quote

/-- Two steps of quoting give results that are related, and keep the names paired. -/
def Both {α : Type} (m : Matching ValueRef) (r : α → α → Prop) (ν ν' : Naming) (x x' : QuoteM α) : Prop :=
  ∃ a a' ν₁ ν₁', Yields x ν a ν₁ ∧ Yields x' ν' a' ν₁' ∧ r a a' ∧ Naming.Paired m ν₁ ν₁'

namespace Both

variable {α β : Type} {m : Matching ValueRef} {r : α → α → Prop} {s : β → β → Prop} {ν ν' : Naming}

theorem bind {x x' : QuoteM α} {f f' : α → QuoteM β} (hx : Both m r ν ν' x x')
    (hf : ∀ a a' ν₁ ν₁', r a a' → Naming.Paired m ν₁ ν₁' → Both m s ν₁ ν₁' (f a) (f' a')) :
    Both m s ν ν' (x >>= f) (x' >>= f') := by
  obtain ⟨a, a', ν₁, ν₁', hx, hx', ha, hν⟩ := hx
  obtain ⟨b, b', ν₂, ν₂', hb, hb', hr, hν⟩ := hf a a' ν₁ ν₁' ha hν
  exact ⟨b, b', ν₂, ν₂', hx.bind hb, hx'.bind hb', hr, hν⟩

theorem pure {a a' : α} (hν : Naming.Paired m ν ν') (h : r a a') :
    Both m r ν ν' (Pure.pure a) (Pure.pure a') :=
  ⟨a, a', ν, ν', .pure a, .pure a', h, hν⟩

/-- Steps that do not look at names. -/
theorem lift {x x' : Except Fault α} {a a' : α} (hν : Naming.Paired m ν ν') (hx : x = .ok a)
    (hx' : x' = .ok a') (h : r a a') : Both m r ν ν' (x : QuoteM α) (x' : QuoteM α) :=
  ⟨a, a', ν, ν', .lift hx, .lift hx', h, hν⟩

/-- A step that does not look at names, before the others. -/
theorem lift_bind {x x' : Except Fault α} {a a' : α} {f f' : α → QuoteM β} (hx : x = .ok a)
    (hx' : x' = .ok a') (hf : Both m s ν ν' (f a) (f' a')) :
    Both m s ν ν' ((x : QuoteM α) >>= f) ((x' : QuoteM α) >>= f') := by
  obtain ⟨b, b', ν₁, ν₁', hb, hb', hs, hν⟩ := hf
  exact ⟨b, b', ν₁, ν₁', (Yields.lift hx).bind hb, (Yields.lift hx').bind hb', hs, hν⟩

theorem mapM {γ : Type} {q : γ → γ → Prop} {l l' : List γ} {f f' : γ → QuoteM α}
    (hν : Naming.Paired m ν ν') (hl : List.Forall₂ q l l')
    (hf : ∀ c c' ν ν', q c c' → Naming.Paired m ν ν' → Both m r ν ν' (f c) (f' c')) :
    Both m (List.Forall₂ r) ν ν' (l.mapM f) (l'.mapM f') := by
  induction hl generalizing ν ν' with
  | nil =>
    rw [List.mapM_nil, List.mapM_nil]
    exact .pure hν .nil
  | cons hc _ ih =>
    rw [List.mapM_cons, List.mapM_cons]
    refine (hf _ _ ν ν' hc hν).bind fun a a' ν₁ ν₁' ha hν => (ih hν).bind fun as as' _ _ has hν => ?_
    exact .pure hν (.cons ha has)

/-- Lists that give the same, element by element. -/
theorem mapM_eq {γ : Type} {q : γ → γ → Prop} {l l' : List γ} {f f' : γ → QuoteM α}
    (hν : Naming.Paired m ν ν') (hl : List.Forall₂ q l l')
    (hf : ∀ c c' ν ν', q c c' → Naming.Paired m ν ν' → Both m (· = ·) ν ν' (f c) (f' c')) :
    Both m (· = ·) ν ν' (l.mapM f) (l'.mapM f') := by
  obtain ⟨as, as', ν₁, ν₁', hx, hx', has, hν₁⟩ := mapM hν hl hf
  exact ⟨as, as', ν₁, ν₁', hx, hx', List.forall₂_eq_eq_eq ▸ has, hν₁⟩

end Both

end Quote

/-! ## In step -/

namespace Unplaced

theorem ops_congr {Ms Ms' : List OpTerm} (h : List.Forall₂ (fun M M' => op M = op M') Ms Ms') :
    ops Ms = ops Ms' := by
  induction h with
  | nil => rfl
  | cons hM _ ih => rw [ops, ops, hM, ih]

theorem blocks_cons (B : BlockTerm) (Bs : List BlockTerm) :
    blocks (B :: Bs) = blocks [B] ++ blocks Bs := by
  cases B
  rfl

theorem blocks_congr {Bs Bs' : List BlockTerm}
    (h : List.Forall₂ (fun B B' => blocks [B] = blocks [B']) Bs Bs') : blocks Bs = blocks Bs' := by
  induction h with
  | nil => rfl
  | cons hB _ ih => rw [blocks_cons, hB, ih, ← blocks_cons]

theorem regions_cons (R : RegionTerm) (Rs : List RegionTerm) :
    regions (R :: Rs) = regions [R] ++ regions Rs := by
  cases R
  rfl

theorem regions_congr {Rs Rs' : List RegionTerm}
    (h : List.Forall₂ (fun R R' => regions [R] = regions [R']) Rs Rs') : regions Rs = regions Rs' := by
  induction h with
  | nil => rfl
  | cons hR _ ih => rw [regions_cons, hR, ih, ← regions_cons]

end Unplaced

/-- Lines that say the same, but for their places. -/
def Head.Same (h h' : Head) : Prop := { h with span := ⟨0, 0⟩ } = { h' with span := ⟨0, 0⟩ }

/-! ## Rows -/

section Rows

variable (m : Matching ValueRef) (ctx ctx' : Context)

/-- Rows of operations that say the same, apart from their regions. Operands correspond, or
    neither corresponds to anything. -/
structure SameLine (row row' : Operation) : Prop where
  kind : row.kind = row'.kind
  attributes : SameAttributes ctx ctx' row.attributes row'.attributes
  operands : List.Forall₂ (fun v v' => m v v' ∨ ¬m.Left v ∧ ¬m.Right v') row.operands row'.operands
  resultTypes : List.Forall₂ (SameType ctx ctx') row.resultTypes row'.resultTypes
  results : List.Forall₂ m row.results row'.results

/-- Arguments that correspond and have the same type. -/
def SameArg (v v' : ValueRef) : Prop :=
  m v v' ∧ ∃ row row', ctx.value v = .ok row ∧ ctx'.value v' = .ok row' ∧
    SameType ctx ctx' row.type row'.type

/-- Relations between the entities of two contexts such that related ones have rows that say the
    same, and list related ones. -/
structure InStep where
  op : OpRef → OpRef → Prop
  region : RegionRef → RegionRef → Prop
  block : BlockRef → BlockRef → Prop
  op_row : ∀ {o o'}, op o o' → ∃ row row', ctx.op o = .ok row ∧ ctx'.op o' = .ok row' ∧
    SameLine m ctx ctx' row row' ∧ List.Forall₂ region row.regions row'.regions
  region_row : ∀ {r r'}, region r r' → ∃ row row', ctx.region r = .ok row ∧
    ctx'.region r' = .ok row' ∧ List.Forall₂ block row.blocks row'.blocks
  block_row : ∀ {b b'}, block b b' → ∃ row row', ctx.block b = .ok row ∧ ctx'.block b' = .ok row' ∧
    List.Forall₂ (SameArg m ctx ctx') row.args row'.args ∧ List.Forall₂ op row.ops row'.ops

end Rows

/-! ## Runs -/

namespace InStep

open Quote

variable {m : Matching ValueRef} {ctx ctx' : Context} {ν ν' : Naming}

section

variable (hν : Naming.Paired m ν ν')

include hν

theorem define {v v' : ValueRef} (hv : m v v') :
    Both m (· = ·) ν ν' (Quote.define v) (Quote.define v') :=
  ⟨_, _, _, _, yields_define v, yields_define v', by rw [hν.nextValue], hν.next hv⟩

theorem nameOf {v v' : ValueRef} (hv : m v v' ∨ ¬m.Left v ∧ ¬m.Right v') :
    Both m (· = ·) ν ν' (Quote.nameOf v) (Quote.nameOf v') := by
  have hlookup : ν.names.lookup v = ν'.names.lookup v' := by
    rcases hv with hv | ⟨hv, hv'⟩
    · exact hν.lookup hv
    · rw [hν.lookup_left hv, hν.lookup_right hv']
  refine ⟨_, _, ν, ν', rfl, rfl, ?_, hν⟩
  rw [hlookup]

theorem head {o o' : OpRef} {row row' : Operation} (hrow : ctx.op o = .ok row)
    (hrow' : ctx'.op o' = .ok row') (h : SameLine m ctx ctx' row row') :
    Both m Head.Same ν ν' (Quote.head ctx o) (Quote.head ctx' o') := by
  obtain ⟨es, hes, hes'⟩ := h.attributes
  have hsymbol : (row.attributes.get? "sym_name").bind Attribute.asSymbol? =
      Normal.symbolIn es := symbol_of_entries hes
  have hsymbol' : (row'.attributes.get? "sym_name").bind Attribute.asSymbol? =
      Normal.symbolIn es := symbol_of_entries hes'
  have hresults : List.Forall₂ m (ctx.results o) (ctx'.results o') := by
    rw [results_eq_readOp, results_eq_readOp, readOp_of_op hrow, readOp_of_op hrow']
    exact h.results
  rw [Quote.head_eq, Quote.head_eq]
  refine (Both.mapM_eq hν hresults fun v v' ν ν' hv hν => define hν hv).bind ?_
  intro names _ ν ν' hnames hν
  subst hnames
  refine .lift_bind hrow hrow' ?_
  dsimp only
  rw [hsymbol, hsymbol']
  refine (Both.mapM_eq hν h.operands fun _ _ _ _ hv hν => nameOf hν hv).bind ?_
  intro operands _ ν ν' hoperands hν
  subst hoperands
  have hshown (as : List (String × Attribute)) {c : Context}
      (h : entries c (Quote.type c) as = .ok es) :=
    entries_shown h fun key => (Normal.symbolIn es).isNone || key ≠ "sym_name"
  refine .lift_bind (hshown _ hes) (hshown _ hes') ?_
  refine (Both.mapM_eq hν h.resultTypes fun t t' ν ν' ht hν => ?_).bind ?_
  · obtain ⟨term, hterm, hterm'⟩ := ht
    exact .lift hν hterm hterm' rfl
  intro types _ ν ν' htypes hν
  subst htypes
  refine .pure hν ?_
  rw [Head.Same, h.kind]

theorem label {b b' : BlockRef} (hargs : List.Forall₂ (SameArg m ctx ctx') (ctx.args b)
    (ctx'.args b')) : Both m (· = ·) ν ν' (Quote.label ctx b) (Quote.label ctx' b') := by
  have hname : Both m (· = ·) ν ν' nextLabel nextLabel :=
    ⟨_, _, ν.label, ν'.label, rfl, rfl, by rw [hν.nextBlock], hν.label⟩
  rw [Quote.label, Quote.label]
  refine hname.bind fun name _ ν ν' hname hν => ?_
  subst hname
  refine (Both.mapM_eq hν hargs fun v v' ν ν' hv hν => ?_).bind fun args _ ν ν' hargs hν => ?_
  · obtain ⟨hv, row, row', hrow, hrow', term, hterm, hterm'⟩ := hv
    refine (define hν hv).bind fun name _ ν ν' hname hν => ?_
    subst hname
    exact .lift_bind hrow hrow' (.lift_bind hterm hterm' (.pure hν rfl))
  · subst hargs
    exact .pure hν rfl

end

variable (h : InStep m ctx ctx')

theorem args_of_block {b b' : BlockRef} (hb : h.block b b') :
    List.Forall₂ (SameArg m ctx ctx') (ctx.args b) (ctx'.args b') := by
  obtain ⟨row, row', hrow, hrow', hargs, -⟩ := h.block_row hb
  rwa [args_eq_readBlock, args_eq_readBlock, readBlock_of_block hrow, readBlock_of_block hrow']

theorem isBare_eq {bs bs' : List BlockRef} (hbs : List.Forall₂ h.block bs bs') :
    isBare ctx bs = isBare ctx' bs' := by
  cases hbs with
  | nil => rfl
  | cons hb hrest =>
    cases hrest with
    | cons _ _ => rfl
    | nil =>
      rw [isBare, isBare, Bool.eq_iff_iff, List.isEmpty_iff_length_eq_zero,
        List.isEmpty_iff_length_eq_zero, (h.args_of_block hb).length_eq]

variable (hν : Naming.Paired m ν ν')

include hν

/-- A region is quoted in step if the operations in it are. -/
theorem region_both {op op' : OpRef → QuoteM OpTerm} {r r' : RegionRef} (hr : h.region r r')
    (hop : ∀ o ∈ (ctx.blocksOf r).flatMap ctx.opsOf, ∀ o' ∈ (ctx'.blocksOf r').flatMap ctx'.opsOf,
      ∀ ν ν', h.op o o' → Naming.Paired m ν ν' →
        Both m (fun M M' => Unplaced.op M = Unplaced.op M') ν ν' (op o) (op' o')) :
    Both m (fun M M' => Unplaced.regions [M] = Unplaced.regions [M']) ν ν'
      (Quote.region ctx op r) (Quote.region ctx' op' r') := by
  obtain ⟨row, row', hrow, hrow', hblocks⟩ := h.region_row hr
  rw [blocksOf, blocksOf, readRegion_of_region hrow, readRegion_of_region hrow'] at hop
  rw [Quote.region, Quote.region]
  refine .lift_bind hrow hrow' ?_
  dsimp only
  rw [h.isBare_eq hblocks]
  refine (Both.mapM (r := fun B B' => Unplaced.blocks [B] = Unplaced.blocks [B']) hν
    (Position.forall₂_mem hblocks) fun b b' ν ν' ⟨hmem, hmem', hb⟩ hν => ?_).bind
      fun Bs Bs' ν ν' hBs hν => .pure hν ?_
  · obtain ⟨block, block', hblock, hblock', -, hops⟩ := h.block_row hb
    have hfill (l : Option Label) (ν ν' : Naming) (hν : Naming.Paired m ν ν') :
        Both m (fun B B' => Unplaced.blocks [B] = Unplaced.blocks [B']) ν ν'
          (return .mk l (← (← ctx.block b).ops.mapM op))
          (return .mk l (← (← ctx'.block b').ops.mapM op')) := by
      refine .lift_bind hblock hblock' ?_
      refine (Both.mapM hν (Position.forall₂_mem hops) fun o o' ν ν' ⟨ho, ho', hoo⟩ hν =>
        hop o ?_ o' ?_ ν ν' hoo hν).bind fun Ms Ms' ν ν' hMs hν => .pure hν ?_
      · exact List.mem_flatMap.2 ⟨b, hmem, by rwa [opsOf, readBlock_of_block hblock]⟩
      · exact List.mem_flatMap.2 ⟨b', hmem', by rwa [opsOf, readBlock_of_block hblock']⟩
      · rw [Unplaced.blocks, Unplaced.blocks, Unplaced.ops_congr hMs]
        rfl
    split
    · exact hfill none ν ν' hν
    · rw [map_eq_pure_bind, map_eq_pure_bind, bind_assoc, bind_assoc]
      refine (label hν (h.args_of_block hb)).bind fun l _ ν ν' hl hν => ?_
      subst hl
      exact hfill (some l) ν ν' hν
  · rw [Unplaced.regions, Unplaced.regions, Unplaced.blocks_congr hBs]
    rfl

/-- Related operations are quoted in step, as far down as both trees go. -/
theorem opWithin_both {n n' : Nat} {o o' : OpRef} (ho : h.op o o') {l l' : List OpRef}
    (hn : ctx.subtreeWithin n o = .ok l) (hn' : ctx'.subtreeWithin n' o' = .ok l') :
    Both m (fun M M' => Unplaced.op M = Unplaced.op M') ν ν' (opWithin ctx n o)
      (opWithin ctx' n' o') := by
  induction n generalizing n' o o' ν ν' l l' with
  | zero => cases hn
  | succ n ih =>
    cases n' with
    | zero => cases hn'
    | succ n' =>
      obtain ⟨-, ls, hls, -⟩ := subtreeWithin_succ_eq_ok hn
      obtain ⟨-, ls', hls', -⟩ := subtreeWithin_succ_eq_ok hn'
      obtain ⟨row, row', hrow, hrow', hline, hregions⟩ := h.op_row ho
      rw [opWithin, opWithin]
      refine (head hν hrow hrow' hline).bind fun head head' ν ν' hhead hν => ?_
      refine .lift_bind hrow hrow' ?_
      refine (Both.mapM (r := fun M M' => Unplaced.regions [M] = Unplaced.regions [M']) hν
        (Position.forall₂_mem hregions) fun r r' ν ν' ⟨hmem, hmem', hr⟩ hν => ?_).bind
          fun Ms Ms' ν ν' hMs hν => .pure hν ?_
      · refine h.region_both hν hr fun c hc c' hc' ν ν' hcc hν => ?_
        obtain ⟨k, -, hk⟩ := Outcome.exists_of_mem_left hls (List.mem_flatMap.2
          ⟨r, by rwa [regionsOf, readOp_of_op hrow], hc⟩)
        obtain ⟨k', -, hk'⟩ := Outcome.exists_of_mem_left hls' (List.mem_flatMap.2
          ⟨r', by rwa [regionsOf, readOp_of_op hrow'], hc'⟩)
        exact ih hν hcc hk hk'
      · rw [Unplaced.op, Unplaced.op, Unplaced.regions_congr hMs, hhead]

omit hν in
/-- Related operations are printed as the same text, if their trees end. -/
theorem print_eq {o o' : OpRef} (ho : h.op o o') {l l' : List OpRef}
    (hl : ctx.subtree o = .ok l) (hl' : ctx'.subtree o' = .ok l') :
    ∃ text, ctx.print o = .ok text ∧ ctx'.print o' = .ok text := by
  have hstart : Naming.Paired m {} {} := ⟨.nil, rfl, rfl⟩
  obtain ⟨M, M', ν, ν', hM, hM', heq, -⟩ := h.opWithin_both hstart ho hl hl'
  have hquote : ctx.quote o = .ok M := by
    rw [quote, StateT.run'_eq, hM]
    rfl
  have hquote' : ctx'.quote o' = .ok M' := by
    rw [quote, StateT.run'_eq, hM']
    rfl
  refine ⟨M.text, by rw [print, hquote]; rfl, ?_⟩
  have htext : M'.text = M.text := by
    rw [OpTerm.text, OpTerm.text, ← Source.opText_unplaced 0 M', ← Source.opText_unplaced 0 M, heq]
  rw [print, hquote', ← htext]
  rfl

end InStep

/-! ## Matching contexts

Two contexts that match are quoted in step, from paired operations with paired results on
(`Match.inStep`). So the operations are printed as the same text (`Match.print_eq`). -/

/-- Types and attributes that count as the same are spelled the same. -/
structure Border.Spelled (s : Border) (ctx ctx' : Context) : Prop where
  type : ∀ t t', s.type t t' → SameType ctx ctx' t t'
  attributes : ∀ as as', s.attributes as as' → SameAttributes ctx ctx' as as'

namespace Match

variable {s : Border} {p : Pairing} {ctx ctx' : Context} (h : Match s p ctx ctx')
  (hs : s.Spelled ctx ctx')

include h

theorem operand_corresponds {v v' : ValueRef} (hv : p.Operand s v v') :
    p.value v v' ∨ ¬p.value.Left v ∧ ¬p.value.Right v' :=
  hv.imp_right fun hfree => ⟨(h.free hfree.1).2, (h.free' hfree.2).2⟩

theorem results_inner {o o' : OpRef} (ho : p.Inner s o o') :
    List.Forall₂ p.value (ctx.results o) (ctx'.results o') := by
  obtain ⟨row, row', hrow, hrow', hsame⟩ := h.op ho.1
  rw [results_eq_readOp, results_eq_readOp, readOp_of_op hrow, readOp_of_op hrow']
  exact hsame.results.imp fun _ _ hv => hv ho.2

include hs

/-- What is paired says the same and lists what is paired. -/
def inStep : InStep p.value ctx ctx' where
  op o o' := p.op o o' ∧ List.Forall₂ p.value (ctx.results o) (ctx'.results o')
  region := p.region
  block := p.block
  op_row := by
    rintro o o' ⟨ho, hresults⟩
    obtain ⟨row, row', hrow, hrow', hsame⟩ := h.op ho
    rw [results_eq_readOp, results_eq_readOp, readOp_of_op hrow, readOp_of_op hrow'] at hresults
    exact ⟨row, row', hrow, hrow', ⟨hsame.kind, hs.attributes _ _ hsame.attributes,
      hsame.operands.imp fun _ _ => h.operand_corresponds, hsame.resultTypes.imp hs.type, hresults⟩,
      hsame.regions⟩
  region_row := by
    intro r r' hr
    obtain ⟨row, row', hrow, hrow', hsame⟩ := h.region hr
    exact ⟨row, row', hrow, hrow', hsame.blocks⟩
  block_row := by
    intro b b' hb
    obtain ⟨row, row', hrow, hrow', hsame⟩ := h.block hb
    refine ⟨row, row', hrow, hrow', hsame.args.imp fun v v' hv => ⟨hv, ?_⟩,
      hsame.ops.imp fun o o' ho => ⟨ho.1, h.results_inner ho⟩⟩
    obtain ⟨row, row', hrow, hrow', htype⟩ := h.value hv
    exact ⟨row, row', hrow, hrow', hs.type _ _ htype⟩

/-- Paired operations whose results are paired are printed as the same text. -/
theorem print_eq (hsound : ctx.Sound) (hsound' : ctx'.Sound) {o o' : OpRef} (ho : p.op o o')
    (hresults : List.Forall₂ p.value (ctx.results o) (ctx'.results o')) :
    ∃ text, ctx.print o = .ok text ∧ ctx'.print o' = .ok text := by
  obtain ⟨hex, hex'⟩ := h.hasOp ho
  obtain ⟨l, hl⟩ := hsound.grounded.subtree_ok hsound.coherent hex
  obtain ⟨l', hl'⟩ := hsound'.grounded.subtree_ok hsound'.coherent hex'
  exact (h.inStep hs).print_eq ⟨ho, hresults⟩ hl hl'

end Match

end Offload
