import Offload.Proofs.Source.Alike
import Offload.Proofs.Source.Legibility
import Offload.Proofs.Source.Reread
import Offload.Proofs.Source.Resolution

/-!
# Printing and reading again

A program that was read can be printed, and the text can be read again, into any
context. What comes of it is isomorphic to the program, and printing it gives the same
text (`print_read`).

Three terms are involved: the one of the text that was read first, its normal form,
which is what is printed, and the one that is read off the printed text. The last two
agree up to places, so they have the same normal form, and this one depicts the program
before and after.
-/

namespace Offload

open Context

namespace Context

/-- A context that programs can be read into: its tables agree, and its types are made of
    earlier ones. -/
structure Orderly (ctx : Context) : Prop where
  sound : ctx.Sound
  founded : ctx.Founded

theorem orderly_empty : empty.Orderly := ⟨sound_empty, founded_empty⟩

end Context

namespace Build

variable {ctx ctx' : Context} {path text : String} {root : OpRef}

theorem orderly_start (h : ctx.Orderly) (path : String) : (start ctx path).context.Orderly :=
  ⟨(built_start h.sound path).sound, (enriched_internPath ctx path).1.founded h.founded⟩

/-- A program is printed as the normal form of the term of its text, which depicts it. -/
theorem read_normal (h : ctx.Orderly) (hread : ctx.read path text = (.ok root, ctx')) :
    ctx'.Orderly ∧ ∃ T M st ν, readTerm text = .ok T ∧ Normal.op T {} = some (M, st) ∧
      ctx'.print root = .ok M.text ∧ Naming.OneToOne ν ∧
      Depicts.op ctx' (ν.names.lookup ·) M root := by
  obtain ⟨T, s, hT, hrun, rfl⟩ := read_eq_ok.1 hread
  have hstart := orderly_start h path
  obtain ⟨hbuilt, hmade⟩ := op_spec T _ root s hstart.sound hrun
  have henriched := stepwise_enriched.op T hrun hstart.founded
  refine ⟨⟨hbuilt.sound, henriched.founded hstart.founded⟩, ?_⟩
  have hready : Ready (start ctx path) s s.context {} {} := {
    sound := hstart.sound
    founded := hstart.founded
    later := .refl s.context
    aligned := ⟨.nil, rfl, rfl, nofun, nofun⟩
    unnamed := fun _ _ _ => rfl }
  obtain ⟨M, st, hnormal, N, ν, hyields, hN, haligned, -, hdepicts⟩ :=
    op_quoted T _ root s s.context {} {} (s.context.ops.size + 1) hready hrun
      (Nat.lt_succ_of_lt hmade.2.1)
  refine ⟨T, M, st, ν, hT, hnormal, ?_, haligned.oneToOne, hdepicts _ fun _ _ hv => hv⟩
  have htext : N.text = M.text := by
    rw [← hN]
    exact (Source.opText_unplaced 0 N).symm
  have hquote : s.context.quote root = .ok N := by
    rw [quote, StateT.run'_eq, hyields]
    rfl
  rw [print, hquote, ← htext]
  rfl

/-- A text whose term has a normal form can be read. -/
theorem exists_read {T M : OpTerm} {st : Numbering} (h : Normal.op T {} = some (M, st))
    (hT : readTerm text = .ok T) (ctx : Context) (path : String) :
    ∃ root ctx', ctx.read path text = (.ok root, ctx') := by
  obtain ⟨root, s, hrun, -⟩ := exists_runs_of_normal T M (start ctx path) {} st rfl h
  exact ⟨root, s.context, read_eq_ok.2 ⟨T, s, hT, hrun, rfl⟩⟩

end Build

/-- Printing a legible program that was read gives a text that can be read. What is read
    then is isomorphic to the program, and it is printed as the same text. -/
theorem Context.print_read {ctx ctx' target : Context} {path text : String} {root : OpRef}
    (hctx : ctx.Orderly) (htarget : target.Orderly)
    (hread : ctx.read path text = (.ok root, ctx')) (hroot : ctx'.Legible root) (path' : String) :
    ∃ printed root' target', ctx'.print root = .ok printed ∧
      target.read path' printed = (.ok root', target') ∧
      ctx'.Isomorphic target' root root' ∧ target'.print root' = .ok printed := by
  obtain ⟨hctx', T, M, st, ν, hT, hnormal, hprint, hν, hdepicts⟩ := Build.read_normal hctx hread
  have hlegible : Legible.op M := Normal.op_legible hctx'.sound.coherent hroot T M {} st root
    (spelled_of_readTerm hT) hnormal hdepicts (.refl root)
  obtain ⟨N, hN, hplaces⟩ := readTerm_text hlegible
  have hnormalN : Normal.op N {} = some (M, st.renamed) := by
    rw [← Normal.op_unplaced, hplaces, Normal.op_unplaced]
    exact Normal.op_normal T M {} st hnormal
  obtain ⟨root', target', hread'⟩ := Build.exists_read hnormalN hN target path'
  obtain ⟨-, T', M', st', ν', hT', hnormal', hprint', hν', hdepicts'⟩ :=
    Build.read_normal htarget hread'
  obtain rfl : N = T' := Except.ok.inj (hN.symm.trans hT')
  obtain rfl : M = M' := congrArg Prod.fst (Option.some.inj (hnormalN.symm.trans hnormal'))
  exact ⟨M.text, root', target', hprint, hread',
    Depicts.isomorphic hν.injective hν'.injective hdepicts hdepicts', hprint'⟩

/-- A program with a quoted symbol, a number with a point, a list, a type with attributes,
    arguments, two results and regions of all shapes. -/
def strewn : String :=
  "test.top @\"a b\" \x7bsizes = [1, 0.5]\x7d \x7b
  ^entry( %a : core.ptr , %b:core.vec(core.f32)\x7blanes=4\x7d ) :
    %x, %y = test.use %b , %a : core.i1 , core.f32
    test.nest \x7b \x7d \x7b test.end %x \x7d
  ^last :
\x7d"

/-- The same program as it is printed. -/
def tidied : String :=
  "test.top @\"a b\" \x7bsizes = [1, 0.5]\x7d \x7b
  ^bb0(%0: core.ptr, %1: core.vec(core.f32) \x7blanes = 4\x7d):
    %2, %3 = test.use %1, %0 : core.i1, core.f32
    test.nest \x7b
    \x7d \x7b
      test.end %2
    \x7d
  ^bb1:
\x7d
"

set_option maxRecDepth 100000 in
theorem print_read_strewn : ∃ root ctx root' ctx',
    Context.empty.read "f" strewn = (.ok root, ctx) ∧ ctx.Legible root ∧
      ctx.print root = .ok tidied ∧ Context.empty.read "g" tidied = (.ok root', ctx') ∧
      ctx.Isomorphic ctx' root root' ∧ ctx'.print root' = .ok tidied := by
  have hreads : Build.reads "f" strewn fun root ctx =>
      decide (ctx.LegibleThroughout ∧ (ctx.print root).toOption = some tidied) :=
    Build.reads_ofList (by decide +kernel)
  obtain ⟨root, ctx, hread, htest⟩ := Build.exists_of_reads hreads
  obtain ⟨hall, htidied⟩ := of_decide_eq_true htest
  obtain ⟨printed, root', ctx', hprint, hread', hiso, hagain⟩ :=
    Context.print_read orderly_empty orderly_empty hread (hall.legible root) "g"
  obtain rfl : printed = tidied := by
    rw [hprint] at htidied
    exact Option.some.inj htidied
  exact ⟨root, ctx, root', ctx', hread, hall.legible root, hprint, hread', hiso, hagain⟩

end Offload
