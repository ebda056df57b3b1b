import Offload.Proofs.Source.Depiction
import Offload.Proofs.Source.Spans

/-!
# Spans of programs

The operations of a program that was read have the spans of its term, whatever the context was
before (`Context.read_spans`). So these spans lie in the text as the operations are nested.

Building adds new rows alone, and lists operations in new blocks alone. So an operation keeps its
kind, its place and its regions from when it is built. The proof goes along with building, one case
for each of its steps, and says of each part that it is located in any later context that keeps what
came in with it.
-/

namespace Offload

open Context

namespace Locates

variable (ctx : Context) (path : PathRef)

mutual

/-- An operation has the kind and the span of a term, in the text of a file, and so has each one
    that is nested in it. -/
def op : OpTerm → OpRef → Prop
  | .mk head terms, o => ∃ row, ctx.op o = .ok row ∧ row.kind = head.kind ∧
    row.location = ⟨path, head.span⟩ ∧ regions terms row.regions

def regions : List RegionTerm → List RegionRef → Prop
  | [], rs => rs = []
  | .mk terms :: rest, rs => ∃ r rs' row, rs = r :: rs' ∧ ctx.region r = .ok row ∧
    blocks terms row.blocks ∧ regions rest rs'

def blocks : List BlockTerm → List BlockRef → Prop
  | [], bs => bs = []
  | .mk _ terms :: rest, bs => ∃ b bs' row, bs = b :: bs' ∧ ctx.block b = .ok row ∧
    ops terms row.ops ∧ blocks rest bs'

def ops : List OpTerm → List OpRef → Prop
  | [], os => os = []
  | term :: rest, os => ∃ o os', os = o :: os' ∧ op term o ∧ ops rest os'

end

end Locates

namespace Build

/-- Building adds to the context, and what it adds is located in each later context. -/
structure Adds (s s' : Builder) (located : Context → Prop) : Prop where
  grows : s.context.Extends s'.context
  path : s'.path = s.path
  located : ∀ ctx, Kept s.context s'.context ctx → located ctx

/-- Operations are built into a block, all other rows stay as they are, and the operations are
    located in each later context. -/
structure AddsInto (b : BlockRef) (s s' : Builder) (located : Context → List OpRef → Prop) :
    Prop where
  grows : ∀ old : Context, old.Extends s.context → ¬old.HasBlock b → old.Extends s'.context
  kept : ∀ old : Context, old.HasBlock b → Kept old s.context s'.context
  path : s'.path = s.path
  listed : ∀ row, s.context.block b = .ok row → ∃ row' os, s'.context.block b = .ok row' ∧
    row'.ops = row.ops ++ os ∧ ∀ ctx, Kept s.context s'.context ctx → located ctx os

theorem Interned.grows {ctx ctx' : Context} (h : Interned ctx ctx') : ctx.Extends ctx' := by
  rw [h]
  exact ⟨fun _ _ ho => ho, fun _ _ hb => hb, fun _ _ hr => hr, fun _ _ hv => hv⟩

theorem has_append (ctx : Context) (b : BlockRef) (o : OpRef) :
    (∀ p, (ctx.append b o).HasOp p ↔ ctx.HasOp p) ∧
      (∀ c, (ctx.append b o).HasBlock c ↔ ctx.HasBlock c) ∧
      ∀ r, (ctx.append b o).HasRegion r ↔ ctx.HasRegion r := by
  simp [HasOp, HasBlock, HasRegion, Context.append, modifyBlock, modifyOp]

mutual

theorem op_adds : ∀ (term : OpTerm) (s : Builder) (o : OpRef) (s' : Builder),
    Runs (op term) s o s' →
      Adds s s' (Locates.op · s.path term o) ∧ ¬s.context.HasOp o
  | .mk head terms, s, o, s', hrun => by
    obtain ⟨-, operands, attributes, ctx₁, resultTypes, ctx₂, rs, s₂, blueprint, -, hattributes,
      htypes, hregions, rfl, rfl, rfl⟩ := op_steps hrun
    obtain rfl : ((headAttributes head).run s.context).2 = ctx₁ := congrArg Prod.snd hattributes
    obtain rfl : ((types head.types).run _).2 = ctx₂ := congrArg Prod.snd htypes
    have hinterned : Interned s.context ((headAttributes head).run s.context).2 :=
      interned_headAttributes head s.context
    have h₁ := (hinterned.trans (interned_types head.types _)).grows
    obtain ⟨h₂, hnew⟩ := regions_adds _ terms _ rs s₂ hregions
    have hgrows := h₁.trans h₂.grows
    have hno : ¬s.context.HasOp ⟨s₂.context.ops.size⟩ := fun ho => not_hasOp_size (hgrows.hasOp ho)
    refine ⟨⟨hgrows.addOp fun r hr hold => hnew r hr (h₁.hasRegion hold), h₂.path,
      fun ctx hctx => ?_⟩, hno⟩
    obtain ⟨owner, hrow⟩ := hctx.op _ _ (op_addOp _) hno
    exact ⟨_, hrow, rfl, rfl, h₂.located ctx (kept_addOp.trans (hctx.extend h₁))⟩

theorem regions_adds : ∀ (location : Location) (terms : List RegionTerm) (s : Builder)
    (rs : List RegionRef) (s' : Builder), Runs (regions location terms) s rs s' →
      Adds s s' (Locates.regions · s.path terms rs) ∧ ∀ r ∈ rs, ¬s.context.HasRegion r
  | location, [], s, rs, s', hrun => by
    rw [regions] at hrun
    obtain ⟨rfl, rfl⟩ := runs_pure.1 hrun
    exact ⟨⟨.refl _, rfl, fun _ _ => rfl⟩, nofun⟩
  | location, .mk terms :: rest, s, rs, s', hrun => by
    obtain ⟨bs, s₁, rs', hblocks, hrest, rfl⟩ := regions_cons_runs hrun
    obtain ⟨h₁, hnew₁⟩ := blocks_adds location terms s bs s₁ hblocks
    obtain ⟨h₂, hnew₂⟩ := regions_adds location rest _ rs' s' hrest
    have hgrows : s.context.Extends (s₁.context.addRegion location bs).1 := h₁.grows.addRegion hnew₁
    have hno : ¬s.context.HasRegion ⟨s₁.context.regions.size⟩ := fun hr =>
      not_hasRegion_size (h₁.grows.hasRegion hr)
    refine ⟨⟨hgrows.trans h₂.grows, h₂.path.trans h₁.path, fun ctx hctx => ?_⟩,
      List.forall_mem_cons.2 ⟨hno, fun r hr hold => hnew₂ r hr (hgrows.hasRegion hold)⟩⟩
    -- the region is new, so that it lists these blocks from now on
    have hlater := (h₂.grows.kept s.context).trans hctx
    obtain ⟨owner, hrow⟩ := hlater.region _ _ (region_addRegion location bs) hno
    have hrest' := h₂.located ctx (hctx.extend hgrows)
    dsimp only at hrest'
    rw [h₁.path] at hrest'
    exact ⟨_, rs', _, rfl, hrow, h₁.located ctx (kept_addRegion.trans hlater), hrest'⟩

theorem blocks_adds : ∀ (location : Location) (terms : List BlockTerm) (s : Builder)
    (bs : List BlockRef) (s' : Builder), Runs (blocks location terms) s bs s' →
      Adds s s' (Locates.blocks · s.path terms bs) ∧ ∀ b ∈ bs, ¬s.context.HasBlock b
  | location, [], s, bs, s', hrun => by
    rw [blocks] at hrun
    obtain ⟨rfl, rfl⟩ := runs_pure.1 hrun
    exact ⟨⟨.refl _, rfl, fun _ _ => rfl⟩, nofun⟩
  | location, .mk label terms :: rest, s, bs, s', hrun => by
    obtain ⟨ctx₁, argTypes, names, s₂, bs', hinterned, hops, hrest, rfl⟩ := blocks_cons_runs hrun
    have hrow := block_addBlock ctx₁ location argTypes
    have h₁ := hinterned.grows
    have h₂ : s.context.Extends (ctx₁.addBlock location argTypes []).1 :=
      h₁.trans extends_addBlock
    -- the operations go into the new block, which was not there before
    have h₃ := ops_adds _ terms _ () s₂ (hasBlock_iff.2 ⟨_, hrow⟩) hops
    obtain ⟨h₄, hnew⟩ := blocks_adds location rest s₂ bs' s' hrest
    have hno : ¬s.context.HasBlock ⟨ctx₁.blocks.size⟩ := fun hb =>
      not_hasBlock_size (h₁.hasBlock hb)
    have hgrows := h₃.grows _ h₂ hno
    obtain ⟨row, os, hlisted, hos, hlocated⟩ := h₃.listed _ hrow
    refine ⟨⟨hgrows.trans h₄.grows, h₄.path.trans h₃.path, fun ctx hctx => ?_⟩,
      List.forall_mem_cons.2 ⟨hno, fun b hb hold => hnew b hb (hgrows.hasBlock hold)⟩⟩
    obtain ⟨owner, hkept⟩ := ((h₄.grows.kept _).trans hctx).block _ _ hlisted hno
    have hrest' := h₄.located ctx (hctx.extend hgrows)
    rw [h₃.path] at hrest'
    refine ⟨_, bs', _, rfl, hkept, ?_, hrest'⟩
    rw [List.nil_append] at hos
    dsimp only
    rw [hos]
    exact hlocated ctx ((h₄.grows.kept _).trans (hctx.extend h₂))

theorem ops_adds : ∀ (b : BlockRef) (terms : List OpTerm) (s : Builder) (u : Unit) (s' : Builder),
    s.context.HasBlock b → Runs (ops b terms) s u s' →
      AddsInto b s s' (Locates.ops · s.path terms ·)
  | b, [], s, u, s', hb, hrun => by
    rw [ops] at hrun
    obtain ⟨-, rfl⟩ := runs_pure.1 hrun
    exact ⟨fun _ h _ => h, fun old _ => (Extends.refl _).kept old, rfl,
      fun row hrow => ⟨row, [], hrow, (List.append_nil _).symm, fun _ _ => rfl⟩⟩
  | b, term :: rest, s, u, s', hb, hrun => by
    obtain ⟨o, s₁, ho, hrest⟩ := ops_cons_runs hrun
    obtain ⟨h₁, hno⟩ := op_adds term s o s₁ ho
    obtain ⟨hops, hblocks, hregions⟩ := has_append s₁.context b o
    have h₂ := ops_adds b rest _ () s' ((hblocks b).2 (h₁.grows.hasBlock hb)) hrest
    refine ⟨fun old hold hnb => h₂.grows old ((hold.trans h₁.grows).append hnb fun h =>
      hno (hold.hasOp h)) hnb, fun old hold => ((h₁.grows.kept old).trans (kept_append hold)).trans
        (h₂.kept old hold), h₂.path.trans h₁.path, fun row hrow => ?_⟩
    -- the block lists the operation, and then the others
    have hrow₁ : (s₁.context.append b o).block b = .ok { row with ops := row.ops ++ [o] } := by
      rw [block_append, if_pos rfl, h₁.grows.block b row hrow]
      rfl
    obtain ⟨row', os, hlisted, hos, hlocated⟩ := h₂.listed _ hrow₁
    refine ⟨row', o :: os, hlisted, by rw [hos, List.append_assoc]; rfl, fun ctx hctx =>
      ⟨o, os, rfl, h₁.located ctx ((kept_append hb).trans ((h₂.kept _ hb).trans hctx)), ?_⟩⟩
    have hrest' := hlocated ctx (hctx.mono (fun p hp => (hops p).2 (h₁.grows.hasOp hp))
      (fun c hc => (hblocks c).2 (h₁.grows.hasBlock hc))
      fun r hr => (hregions r).2 (h₁.grows.hasRegion hr))
    dsimp only at hrest'
    rwa [h₁.path] at hrest'

end

end Build

/-- The operations of a program that was read have the spans of the term that its text spells, and
    these lie in the text as the operations are nested. -/
theorem Context.read_spans {ctx ctx' : Context} {path text : String} {root : OpRef}
    (hread : ctx.read path text = (.ok root, ctx')) : ∃ term, readTerm text = .ok term ∧
      Locates.op ctx' (ctx.internPath path).2 term root ∧ Laminar text.toList term := by
  obtain ⟨term, s, hterm, hrun, rfl⟩ := Build.read_eq_ok.1 hread
  obtain ⟨hadds, -⟩ := Build.op_adds term _ root s hrun
  exact ⟨term, hterm, hadds.located _ ((Extends.refl _).kept _), laminar_of_readTerm hterm⟩

/-- Two regions with two blocks and one, in uneven lines. -/
def uneven : String := "
  %0 = a.b : t.i  \x7b ^x(%1: t.i):  a.c %1 \x7ba.k = 1\x7d
      a.d ^y: \x7d \x7b a.e\x7d
"

set_option maxRecDepth 100000 in
theorem read_spans_uneven : ∃ root ctx term,
    Context.empty.read "f" uneven = (.ok root, ctx) ∧ readTerm uneven = .ok term ∧
      Locates.op ctx (Context.empty.internPath "f").2 term root ∧ Laminar uneven.toList term ∧
      term.span = ⟨3, 74⟩ ∧ term.children.map OpTerm.span = [⟨35, 51⟩, ⟨58, 62⟩, ⟨70, 73⟩] := by
  have hreads : Build.reads "f" uneven fun _ _ => true := Build.reads_ofList (by decide +kernel)
  have hspans : (readTerm uneven).toOption.map (fun t => (t.span, t.children.map OpTerm.span)) =
      some (⟨3, 74⟩, [⟨35, 51⟩, ⟨58, 62⟩, ⟨70, 73⟩]) := by decide +kernel
  obtain ⟨root, ctx, hread, -⟩ := Build.exists_of_reads hreads
  obtain ⟨term, hterm, hlocates, hlaminar⟩ := Context.read_spans hread
  rw [hterm] at hspans
  obtain ⟨hspan, hchildren⟩ := Prod.mk.inj (Option.some.inj hspans)
  exact ⟨root, ctx, term, hread, hterm, hlocates, hlaminar, hspan, hchildren⟩

end Offload
