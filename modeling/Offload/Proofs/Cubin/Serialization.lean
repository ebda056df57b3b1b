import Offload.Cubin.Serialize
import Offload.Proofs.Access
import Offload.Proofs.Ir.Reachable
import Offload.Proofs.Source.Build

/-!
# What a serialization leaves

A serialization gives its binary to one device module after the other, up to the
first that fails (`serialize_outcome`). Then the modules before that one carry
their binaries (`Carries`), each made where those before it were there already
(`Served`), and nothing else is different: also the module that fails is as it
was. So it is without a binary only if it came without one.

What is made of a module does not depend on what is printed meanwhile. A session
comes to what a computation that prints nothing comes to (`Session.ComesTo`), and
`blobOf` is that computation for the binary of a module.
-/

namespace Offload.Cubin

open Context

/-! ## Computations that print nothing -/

/-- A computation that can fail, and prints nothing. -/
abbrev Silent := ExceptT Cause (Except Fault)

namespace Silent

variable {α β : Type} {y : Silent α} {g : α → Silent β} {z : Except Fault α} {fault : Fault}

theorem bind_eq_error (h : (y >>= g).run = .error fault) :
    y.run = .error fault ∨ ∃ a, y.run = .ok (.ok a) ∧ (g a).run = .error fault := by
  have hbind : (y >>= g).run = y.run >>= ExceptT.bindCont g := rfl
  rw [hbind] at h
  rcases hy : y.run with e | e | a <;> rw [hy] at h
  · exact .inl (congrArg Except.error (Except.error.inj h))
  · cases h
  · exact .inr ⟨a, rfl, h⟩

theorem lift_eq_error : (liftM z : Silent α).run = .error fault ↔ z = .error fault := by
  cases z <;> simp [liftM, monadLift, MonadLift.monadLift, ExceptT.run, ExceptT.lift, ExceptT.mk]

theorem lift_eq_ok {a : α} : (liftM z : Silent α).run = .ok (.ok a) ↔ z = .ok a := by
  cases z <;> simp [liftM, monadLift, MonadLift.monadLift, ExceptT.run, ExceptT.lift, ExceptT.mk]

end Silent

namespace Session

/-- A session comes to what a silent computation comes to, whatever was printed before. -/
def ComesTo {α : Type} (x : Session α) (y : Silent α) : Prop :=
  ∀ printed, (x.run.run printed).map Prod.fst = y.run

variable {α β : Type} {x : Session α} {y : Silent α} {f : α → Session β} {g : α → Silent β}

theorem run_bind (printed : String) : (x >>= f).run.run printed = match x.run.run printed with
    | .error fault => .error fault
    | .ok (.error e, printed) => .ok (.error e, printed)
    | .ok (.ok a, printed) => (f a).run.run printed := by
  change (x.run >>= ExceptT.bindCont f).run printed = _
  rw [StateT.run_bind]
  cases x.run.run printed with
  | error fault => rfl
  | ok pair => rcases pair with ⟨_ | a, printed⟩ <;> rfl

namespace ComesTo

theorem pure (a : α) : ComesTo (Pure.pure a) (Pure.pure a) := fun _ => rfl

theorem throw (e : Cause) : ComesTo (throw e : Session α) (throw e) := fun _ => rfl

theorem lift (z : Except Fault α) : ComesTo (liftM z) (liftM z) := by
  intro printed
  cases z <;> rfl

theorem bind (hx : ComesTo x y) (hf : ∀ a, ComesTo (f a) (g a)) : ComesTo (x >>= f) (y >>= g) := by
  intro printed
  have hsilent : (y >>= g).run = y.run >>= ExceptT.bindCont g := rfl
  rw [run_bind, hsilent, ← hx printed]
  rcases x.run.run printed with fault | ⟨_ | a, printed'⟩
  · rfl
  · rfl
  · exact hf a printed'

theorem andThen {x : Session Unit} {z : Session α} (hx : ComesTo x (Pure.pure ()))
    (hz : ComesTo z y) : ComesTo (do x; z) y := hx.bind fun _ => hz

/-- Whether an intermediate result is printed makes no difference. -/
theorem show_quiet (o : Options) (banner name text : String) :
    ComesTo (o.show banner name text) (Pure.pure ()) := by
  intro printed
  rw [Options.show]
  split <;> rfl

end ComesTo

end Session

/-! ## The binary of a module -/

section Binary

variable (tools : Tools) (host : Host) (o : Options)

/-- What the assembler makes of an assembly text. -/
def assembled (assembly : String) : Silent (List UInt8) :=
  match host.scratch o.scratchDirectory with
  | .error reason => throw (.scratch reason)
  | .ok () =>
    match host.assemble o (assembly ++ "\n") with
    | .notStarted reason => throw (.assemblerStart reason)
    | .ended (.error e) => throw (.output e)
    | .ended (.ok binary) => if binary.isEmpty then throw .emptyOutput else return binary

/-- The assembly of optimized device code, or of code that cannot be optimized. -/
def emitted (m : Device.Module) : Silent String :=
  match m.optimize o.level with
  | (.error e, _) => throw (.optimization e)
  | (.ok (), m) =>
    match tools.emit m o.target with
    | .error message => throw (.emission message)
    | .ok assembly => return assembly

/-- The assembly of a module. -/
def translated (ctx : Context) (op : OpRef) (name : String) : Silent String := do
  let some m ← tools.lower ctx op name | throw (.lowering name)
  emitted tools o (← { m with triple := some o.triple }.lowerWith (host.file o.libraryPath))

/-- The binary of a module, or why it has none. -/
def blobOf (ctx : Context) (op : OpRef) (name : String) : Silent (List UInt8) := do
  assembled host o (← translated tools host o ctx op name)

open Session

theorem assemble_comesTo (name assembly : String) :
    ComesTo (assemble host o name assembly) (assembled host o assembly) := by
  refine (ComesTo.show_quiet o _ name assembly).andThen ?_
  rw [assembled]
  cases host.scratch o.scratchDirectory with
  | error reason => exact .throw _
  | ok =>
    dsimp only
    rcases host.assemble o (assembly ++ "\n") with reason | ⟨e | binary⟩
    · exact .throw _
    · exact .throw _
    · dsimp only
      split
      · exact .throw _
      · exact .pure _

theorem assemblyOf_comesTo (ctx : Context) (op : OpRef) (name : String) :
    ComesTo (assemblyOf tools host o ctx op name) (translated tools host o ctx op name) := by
  refine (ComesTo.lift _).bind fun lowered => ?_
  cases lowered with
  | none => exact .throw _
  | some m =>
    refine (ComesTo.lift _).bind fun m => (ComesTo.show_quiet o _ name m.text).andThen ?_
    rw [emitted]
    rcases m.optimize o.level with ⟨e | ⟨⟩, m'⟩
    · exact .throw _
    · refine (ComesTo.show_quiet o _ name m'.text).andThen ?_
      dsimp only
      cases tools.emit m' o.target with
      | error message => exact .throw _
      | ok assembly => exact .pure _

theorem binaryOf_comesTo (ctx : Context) (op : OpRef) (name : String) :
    ComesTo (binaryOf tools host o ctx op name) (blobOf tools host o ctx op name) :=
  (assemblyOf_comesTo tools host o ctx op name).bind fun assembly =>
    assemble_comesTo host o name assembly

/-- The assembler always comes to something. -/
theorem assembled_ok (assembly : String) : ∃ r, (assembled host o assembly).run = .ok r := by
  rw [assembled]
  cases host.scratch o.scratchDirectory with
  | error reason => exact ⟨_, rfl⟩
  | ok =>
    dsimp only
    rcases host.assemble o (assembly ++ "\n") with reason | ⟨e | binary⟩
    · exact ⟨_, rfl⟩
    · exact ⟨_, rfl⟩
    · dsimp only
      split <;> exact ⟨_, rfl⟩

theorem emitted_ok (m : Device.Module) : ∃ r, (emitted tools o m).run = .ok r := by
  rw [emitted]
  rcases m.optimize o.level with ⟨e | ⟨⟩, m'⟩
  · exact ⟨_, rfl⟩
  · dsimp only
    cases tools.emit m' o.target <;> exact ⟨_, rfl⟩

/-- There is a fault only where a module is lowered, or linked with the device library. -/
theorem blobOf_eq_error {ctx : Context} {op : OpRef} {name : String} {fault : Fault}
    (h : (blobOf tools host o ctx op name).run = .error fault) :
    tools.lower ctx op name = .error fault ∨ ∃ m, tools.lower ctx op name = .ok (some m) ∧
      { m with triple := some o.triple }.lowerWith (host.file o.libraryPath) = .error fault := by
  rcases Silent.bind_eq_error h with h | ⟨assembly, -, h⟩
  · rcases Silent.bind_eq_error h with h | ⟨lowered, hlower, h⟩
    · exact .inl (Silent.lift_eq_error.1 h)
    · rw [Silent.lift_eq_ok] at hlower
      cases lowered with
      | none => cases h
      | some m =>
        refine .inr ⟨m, hlower, ?_⟩
        rcases Silent.bind_eq_error h with h | ⟨linked, -, h⟩
        · exact Silent.lift_eq_error.1 h
        · obtain ⟨r, hr⟩ := emitted_ok tools o linked
          cases hr.symm.trans h
  · obtain ⟨r, hr⟩ := assembled_ok host o assembly
    cases hr.symm.trans h

end Binary

/-! ## Contexts that carry binaries -/

variable {tools : Tools} {host : Host} {o : Options} {ctx ctx' : Context} {op p : OpRef}
  {name : String} {binary : List UInt8} {blobs : List (OpRef × List UInt8)}

/-- The context with a binary for a module. -/
def withBinary (ctx : Context) (op : OpRef) (binary : List UInt8) : Context :=
  ctx.setAttribute op binaryKey (.atom (.bytes binary))

/-- The row of an operation, with a binary if it is given one. -/
def branded (row : Operation) : Option (List UInt8) → Operation
  | none => row
  | some binary => { row with attributes := row.attributes.set binaryKey (.atom (.bytes binary)) }

theorem get?_branded (row : Operation) (binary : Option (List UInt8)) {key : String}
    (hkey : key ≠ binaryKey) :
    (branded row binary).attributes.get? key = row.attributes.get? key := by
  cases binary with
  | none => rfl
  | some binary => exact SortedMap.get?_set.trans (if_neg hkey)

/-- A context in which some operations have got binaries, and nothing else is different. -/
structure Carries (ctx : Context) (blobs : List (OpRef × List UInt8)) (ctx' : Context) : Prop where
  rest : ctx' = { ctx with ops := ctx'.ops }
  op : ∀ p, ctx'.op p = (ctx.op p).map (branded · (blobs.lookup p))

theorem carries_nil (ctx : Context) : Carries ctx [] ctx := by
  refine ⟨rfl, fun p => ?_⟩
  cases ctx.op p <;> rfl

theorem Carries.cons (h : Carries (withBinary ctx op binary) blobs ctx')
    (hnew : op ∉ blobs.map Prod.fst) : Carries ctx ((op, binary) :: blobs) ctx' := by
  refine ⟨h.rest, fun p => ?_⟩
  rw [h.op, withBinary, op_setAttribute, List.lookup_cons]
  cases ctx.op p with
  | error fault => rfl
  | ok row =>
    refine congrArg Except.ok ?_
    dsimp only
    by_cases hp : p = op
    · -- the binaries that come later are none of this module
      subst hp
      rw [if_pos rfl, Position.lookup_eq_none hnew, beq_self_eq_true]
      rfl
    · rw [if_neg hp, beq_false_of_ne hp]

theorem carries_withBinary (ctx : Context) (op : OpRef) (binary : List UInt8) :
    Carries ctx [(op, binary)] (withBinary ctx op binary) :=
  (carries_nil _).cons List.not_mem_nil

namespace Carries

variable (h : Carries ctx blobs ctx')

include h

/-- An operation without a new binary is as it was. -/
theorem op_of_not_mem (hp : p ∉ blobs.map Prod.fst) : ctx'.op p = ctx.op p := by
  rw [h.op, Position.lookup_eq_none hp]
  cases ctx.op p <;> rfl

/-- All attributes but the binaries are what they were. -/
theorem attribute? {α : Type} {key : String} (hkey : key ≠ binaryKey)
    (view : Attribute → Option α) : ctx'.attribute? p key view = ctx.attribute? p key view :=
  attribute?_congr (h.op p) (fun row => get?_branded row _ hkey) view

theorem gpuModuleName : ctx'.gpuModuleName p = ctx.gpuModuleName p := by
  rw [Context.gpuModuleName, requireAttribute, h.attribute? (by decide)]
  rfl

theorem binary? (hp : ctx.HasOp p) (hnodup : (blobs.map Prod.fst).Nodup)
    (hmem : (p, binary) ∈ blobs) : ctx'.binary? p = .ok (some binary) := by
  obtain ⟨row, hrow⟩ := hasOp_iff.1 hp
  have hget : (row.attributes.set binaryKey (.atom (.bytes binary))).get? binaryKey =
      some (.atom (.bytes binary)) := SortedMap.get?_set.trans (if_pos rfl)
  rw [Context.binary?, Context.attribute?, h.op, hrow, Position.lookup_of_mem hnodup hmem]
  exact congrArg (fun a : Option Attribute => Except.ok (a.bind Attribute.asBytes?)) hget

end Carries

/-! ## Runs -/

/-- Modules that are given their binaries one after the other, each made in the context in
    which those before carry theirs. -/
inductive Served (tools : Tools) (host : Host) (o : Options) :
    Context → List (OpRef × List UInt8) → Context → Prop
  | nil (ctx : Context) : Served tools host o ctx [] ctx
  | cons {ctx ctx' : Context} {op : OpRef} {name : String} {binary : List UInt8}
      {blobs : List (OpRef × List UInt8)} (hname : ctx.gpuModuleName op = .ok name)
      (hblob : (blobOf tools host o ctx op name).run = .ok (.ok binary))
      (hrest : Served tools host o (withBinary ctx op binary) blobs ctx') :
      Served tools host o ctx ((op, binary) :: blobs) ctx'

theorem Served.carries (h : Served tools host o ctx blobs ctx')
    (hnodup : (blobs.map Prod.fst).Nodup) : Carries ctx blobs ctx' := by
  induction h with
  | nil ctx => exact carries_nil ctx
  | cons _ _ _ ih =>
    -- a binary stays, since no later module is the same
    obtain ⟨hnew, hnodup⟩ := List.nodup_cons.1 hnodup
    exact (ih hnodup).cons hnew

/-- Where an operation stands in the program. -/
abbrev locationOf (ctx : Context) : OpRef → Location := ctx.readOp (·.location) default

theorem locationOf_withBinary (ctx : Context) (op : OpRef) (binary : List UInt8) :
    locationOf (withBinary ctx op binary) = locationOf ctx :=
  readOp_setAttribute _ _ (fun _ _ => rfl) _ _ _

theorem printing_ok {α : Type} (a : α) :
    (liftM (Except.ok a : Except Fault α) : Printing α) = pure a := rfl

/-- What a run does with a module depends on its binary, and not on what was printed before. -/
theorem serializeModules_cons (hname : ctx.gpuModuleName op = .ok name) (hop : ctx.HasOp op)
    (tools : Tools) (host : Host) (o : Options) (ops : List OpRef) (printed : String) :
    (∃ fault, (blobOf tools host o ctx op name).run = .error fault ∧
      (serializeModules tools host o (op :: ops) ctx).run printed = .error fault) ∨
    (∃ cause printed', (blobOf tools host o ctx op name).run = .ok (.error cause) ∧
      (serializeModules tools host o (op :: ops) ctx).run printed =
        .ok ((.error ⟨cause, locationOf ctx op⟩, ctx), printed')) ∨
    ∃ binary printed', (blobOf tools host o ctx op name).run = .ok (.ok binary) ∧
      (serializeModules tools host o (op :: ops) ctx).run printed =
        (serializeModules tools host o ops (withBinary ctx op binary)).run printed' := by
  obtain ⟨row, hrow⟩ := hasOp_iff.1 hop
  have hcomes := binaryOf_comesTo tools host o ctx op name printed
  rw [serializeModules, hname, hrow, printing_ok, pure_bind, StateT.run_bind]
  rcases hbinary : (binaryOf tools host o ctx op name).run.run printed with
    fault | ⟨cause | binary, printed'⟩ <;> rw [hbinary] at hcomes
  · exact .inl ⟨fault, hcomes.symm, rfl⟩
  · refine .inr (.inl ⟨cause, printed', hcomes.symm, ?_⟩)
    rw [locationOf, readOp_of_op hrow]
    rfl
  · exact .inr (.inr ⟨binary, printed', hcomes.symm, rfl⟩)

/-- A run over modules gives binaries to all of them, or to those before the first that has none. -/
theorem serializeModules_outcome (tools : Tools) (host : Host) (o : Options) {ops : List OpRef}
    (hops : ∀ op ∈ ops, ctx.HasOp op ∧ ∃ name, ctx.gpuModuleName op = .ok name)
    (printed : String) :
    ∃ blobs ctx', Served tools host o ctx blobs ctx' ∧
      ((ops = blobs.map Prod.fst ∧ ∃ printed',
        (serializeModules tools host o ops ctx).run printed = .ok ((.ok (), ctx'), printed')) ∨
      ∃ op name later, ops = blobs.map Prod.fst ++ op :: later ∧ ctx.gpuModuleName op = .ok name ∧
        ((∃ cause printed', (blobOf tools host o ctx' op name).run = .ok (.error cause) ∧
          (serializeModules tools host o ops ctx).run printed =
            .ok ((.error ⟨cause, locationOf ctx op⟩, ctx'), printed')) ∨
        ∃ fault, (blobOf tools host o ctx' op name).run = .error fault ∧
          (serializeModules tools host o ops ctx).run printed = .error fault)) := by
  induction ops generalizing ctx printed with
  | nil => exact ⟨[], ctx, .nil ctx, .inl ⟨rfl, printed, rfl⟩⟩
  | cons op ops ih =>
    obtain ⟨⟨hop, name, hname⟩, hops⟩ := List.forall_mem_cons.1 hops
    rcases serializeModules_cons hname hop tools host o ops printed with
      ⟨fault, hblob, hstep⟩ | ⟨cause, printed', hblob, hstep⟩ | ⟨binary, printed', hblob, hstep⟩
    · exact ⟨[], ctx, .nil ctx, .inr ⟨op, name, ops, rfl, hname, .inr ⟨fault, hblob, hstep⟩⟩⟩
    · exact ⟨[], ctx, .nil ctx,
        .inr ⟨op, name, ops, rfl, hname, .inl ⟨cause, printed', hblob, hstep⟩⟩⟩
    · -- the other modules are still there, under their names, after this one got its binary
      have hnames (p : OpRef) : (withBinary ctx op binary).gpuModuleName p = ctx.gpuModuleName p :=
        (carries_withBinary ctx op binary).gpuModuleName
      have hops' : ∀ p ∈ ops, (withBinary ctx op binary).HasOp p ∧
          ∃ name, (withBinary ctx op binary).gpuModuleName p = .ok name := by
        intro p hp
        rw [hnames]
        exact ⟨(hasOp_setAttribute _ _ _).2 (hops p hp).1, (hops p hp).2⟩
      obtain ⟨blobs, ctx', hserved, hend⟩ := ih hops' printed'
      refine ⟨(op, binary) :: blobs, ctx', .cons hname hblob hserved, ?_⟩
      simp only [hnames, locationOf_withBinary] at hend
      rw [hstep]
      rcases hend with ⟨rfl, hrun⟩ | ⟨p, name', later, rfl, hname', hend⟩
      · exact .inl ⟨rfl, hrun⟩
      · exact .inr ⟨p, name', later, rfl, hname', hend⟩

/-! ## Programs -/

/-- The device modules of a valid program have names. -/
theorem gpuModules_ok (h : ctx.Sound) {root : OpRef} {f : Findings}
    (hf : ctx.findings root = .ok f) (hvalid : f.isEmpty) : ∃ ops,
      gpuModules ctx root = .ok ops ∧
      (∃ tree, ctx.subtree root = .ok tree ∧ ops = tree.filter (ctx.kindOf · = .gpuModule)) ∧
      ops.Nodup ∧ (∀ p, p ∈ ops ↔ ctx.Within p root ∧ ctx.kindOf p = .gpuModule) ∧
      ∀ op ∈ ops, ctx.HasOp op ∧ ∃ name, ctx.gpuModuleName op = .ok name := by
  have hc := h.coherent
  obtain ⟨hroot, hshaped⟩ := hc.of_findings hf hvalid
  obtain ⟨tree, htree⟩ := h.grounded.subtree_ok hc hroot
  have hop : ∀ p ∈ tree, ctx.HasOp p :=
    fun p hp => hc.hasOp_of_within' ((hc.mem_subtree_iff htree).1 hp) hroot
  have hmem (p : OpRef) : p ∈ tree.filter (ctx.kindOf · = .gpuModule) ↔
      ctx.Within p root ∧ ctx.kindOf p = .gpuModule := by
    rw [List.mem_filter, hc.mem_subtree_iff htree, decide_eq_true_iff]
  refine ⟨tree.filter (ctx.kindOf · = .gpuModule), ?_, ⟨tree, htree, rfl⟩,
    (h.grounded.nodup_subtree hc htree).filter _, hmem, fun op hop' => ?_⟩
  · rw [gpuModules, htree, Outcome.ok_bind]
    exact Outcome.filterM_eq_ok fun p hp => isKind_ok (hop p hp)
  · have ho := hop op (List.mem_of_mem_filter hop')
    obtain ⟨hwithin, hkind⟩ := (hmem op).1 hop'
    have hfits := (hshaped op hwithin).2.fits _ (by rw [hkind]; rfl)
    exact ⟨ho, hfits.gpuModuleName ho (by decide)⟩

section Run

variable {root : OpRef} {ops : List OpRef} (hops : gpuModules ctx root = .ok ops)
  {printed printed' : String}

include hops

theorem serialize_of_ok {outcome : Except Failure Unit}
    (hrun : (serializeModules tools host o ops ctx).run printed =
      .ok ((outcome, ctx'), printed')) :
    (serialize tools host o ctx root).run printed =
      .ok ((outcome.map fun _ => ops.length, ctx'), printed') := by
  rw [serialize, hops, printing_ok, pure_bind, StateT.run_bind, hrun]
  rfl

theorem serialize_of_error {fault : Fault}
    (hrun : (serializeModules tools host o ops ctx).run printed = .error fault) :
    (serialize tools host o ctx root).run printed = .error fault := by
  rw [serialize, hops, printing_ok, pure_bind, StateT.run_bind, hrun]
  rfl

end Run

/-- A serialization of a valid program gives their binaries to its device modules, in the order of
    the text. If it stops at one, then those before carry their binaries, and that one and those
    after it are as they were. The failure says why that one has no binary, and where it stands. -/
theorem serialize_outcome (h : ctx.Sound) {root : OpRef} {f : Findings}
    (hf : ctx.findings root = .ok f) (hvalid : f.isEmpty) (tools : Tools) (host : Host)
    (o : Options) (printed : String) :
    ∃ ops blobs ctx', (∃ tree, ctx.subtree root = .ok tree ∧
        ops = tree.filter (ctx.kindOf · = .gpuModule)) ∧
      ops.Nodup ∧ (∀ p, p ∈ ops ↔ ctx.Within p root ∧ ctx.kindOf p = .gpuModule) ∧
      Served tools host o ctx blobs ctx' ∧ Carries ctx blobs ctx' ∧
      (∀ e ∈ blobs, ctx'.binary? e.1 = .ok (some e.2)) ∧
      (∀ p ∉ blobs.map Prod.fst, ctx'.op p = ctx.op p) ∧
      ((ops = blobs.map Prod.fst ∧ ∃ printed',
        (serialize tools host o ctx root).run printed = .ok ((.ok ops.length, ctx'), printed')) ∨
      ∃ op name later, ops = blobs.map Prod.fst ++ op :: later ∧ ctx.gpuModuleName op = .ok name ∧
        (∀ p ∈ op :: later, ctx'.op p = ctx.op p) ∧ ctx'.binary? op = ctx.binary? op ∧
        ((∃ cause printed', (blobOf tools host o ctx' op name).run = .ok (.error cause) ∧
          (serialize tools host o ctx root).run printed =
            .ok ((.error ⟨cause, locationOf ctx op⟩, ctx'), printed')) ∨
        ∃ fault, (serialize tools host o ctx root).run printed = .error fault ∧
          (tools.lower ctx' op name = .error fault ∨
            ∃ m, tools.lower ctx' op name = .ok (some m) ∧
              { m with triple := some o.triple }.lowerWith (host.file o.libraryPath) =
                .error fault))) := by
  obtain ⟨ops, hops, htree, hnodup, hmem, hnames⟩ := gpuModules_ok h hf hvalid
  obtain ⟨blobs, ctx', hserved, hend⟩ := serializeModules_outcome tools host o hnames printed
  -- whatever the end, the modules that got binaries come first, each once
  have hsub : (blobs.map Prod.fst).Sublist ops := by
    rcases hend with ⟨rfl, -⟩ | ⟨op, name, later, rfl, -⟩
    · exact List.Sublist.refl _
    · exact List.sublist_append_left _ _
  have hcarries := hserved.carries (hnodup.sublist hsub)
  refine ⟨ops, blobs, ctx', htree, hnodup, hmem, hserved, hcarries,
    fun e he => hcarries.binary? (hnames e.1 (hsub.subset (List.mem_map_of_mem he))).1
      (hnodup.sublist hsub) he, fun p hp => hcarries.op_of_not_mem hp, ?_⟩
  rcases hend with ⟨hall, printed', hrun⟩ | ⟨op, name, later, hfirst, hname, hend⟩
  · exact .inl ⟨hall, printed', serialize_of_ok hops hrun⟩
  · have hlater : ∀ p ∈ op :: later, ctx'.op p = ctx.op p := by
      intro p hp
      rw [hfirst, List.nodup_append] at hnodup
      exact hcarries.op_of_not_mem fun hmem => hnodup.2.2 p hmem p hp rfl
    refine .inr ⟨op, name, later, hfirst, hname, hlater, ?_, ?_⟩
    · rw [Context.binary?, Context.binary?, Context.attribute?, hlater op List.mem_cons_self]
      rfl
    · rcases hend with ⟨cause, printed', hblob, hrun⟩ | ⟨fault, hblob, hrun⟩
      · exact .inl ⟨cause, printed', hblob, serialize_of_ok hops hrun⟩
      · exact .inr ⟨fault, serialize_of_error hops hrun, blobOf_eq_error tools host o hblob⟩

/-- Two device modules. The function of the second returns no value, and says that it does. That
    module has a binary of the bytes `old` already. -/
def sampleModules : String :=
  "test.top \x7b
  gpu.module @a \x7b func.func @f \x7btype = func.fn(core.nil)\x7d \x7b func.return \x7d \x7d
  gpu.module @b \x7bgpu.binary = bytes(111, 108, 100)\x7d \x7b
    func.func @g \x7btype = func.fn(core.i1)\x7d \x7b func.return \x7d
  \x7d
\x7d"

/-- A machine without a device library, on which the assembler writes one byte. -/
def sampleHost : Host where
  read _ := .error .missing
  scratch _ := .ok ()
  assemble _ _ := .ended (.ok [1])

/-- A library that knows the default triple. -/
local instance sampleLibrary : Ptx.TripleLibrary := .wide ["nvptx64-nvidia-cuda"]

set_option maxRecDepth 100000 in
/-- The first module gets its binary. The second fails, and keeps the one that it had. -/
theorem serialize_outcome_sampleModules : ∃ root ctx f,
    Context.empty.read "f" sampleModules = (.ok root, ctx) ∧ ctx.Sound ∧
      ctx.findings root = .ok f ∧ f.isEmpty ∧
      ∃ ctx' cause printed',
        (blobOf .standard sampleHost {} ctx' ⟨5⟩ "b").run = .ok (.error cause) ∧
        (serialize .standard sampleHost {} ctx root).run "" =
          .ok ((.error ⟨cause, locationOf ctx ⟨5⟩⟩, ctx'), printed') ∧
        ctx'.binary? ⟨2⟩ = .ok (some [1]) ∧ ctx'.binary? ⟨5⟩ = .ok (some [111, 108, 100]) := by
  have hreads : Build.reads "f" sampleModules fun root ctx =>
      decide ((ctx.findings root).toOption.any (·.isEmpty) ∧
        (ctx.subtree root).toOption.map (·.filter (ctx.kindOf · = .gpuModule)) = some [⟨2⟩, ⟨5⟩] ∧
        (ctx.gpuModuleName ⟨5⟩).toOption = some "b" ∧
        (ctx.binary? ⟨2⟩).toOption = some none ∧
        (ctx.binary? ⟨5⟩).toOption = some (some [111, 108, 100]) ∧
        (((serialize .standard sampleHost {} ctx root).run "").toOption.map fun answer =>
          (answer.1.1.toOption, (answer.1.2.binary? ⟨2⟩).toOption)) =
            some (none, some (some [1]))) := Build.reads_ofList (by decide +kernel)
  obtain ⟨root, ctx, hread, htest⟩ := Build.exists_of_reads hreads
  obtain ⟨hvalid, hmodules, hname, hnone, hold, hanswer⟩ := of_decide_eq_true htest
  obtain ⟨hsound, -, -, -⟩ := Build.read_built hread
  obtain ⟨f, hf, hvalid⟩ := (Option.any_eq_true _ _).1 hvalid
  obtain ⟨ops, blobs, ctx', ⟨tree, htree, hops⟩, -, -, -, -, -, -, hend⟩ :=
    serialize_outcome hsound (Outcome.eq_ok_of_toOption hf) hvalid .standard sampleHost {} ""
  rw [htree] at hmodules
  obtain rfl := hops.trans (Option.some.inj hmodules)
  rcases hend with ⟨-, printed', hrun⟩ | ⟨op, name, later, hsplit, hname', -, hkept, hend⟩
  · rw [hrun] at hanswer
    cases hanswer
  rcases hend with ⟨cause, printed', hblob, hrun⟩ | ⟨fault, hrun, -⟩ <;> rw [hrun] at hanswer
  swap
  · cases hanswer
  have hbinary := Outcome.eq_ok_of_toOption (Prod.ext_iff.1 (Option.some.inj hanswer)).2
  -- the one that failed is the second: the first has got a binary, and had none
  rcases blobs with _ | ⟨e, _ | ⟨e', blobs⟩⟩
  · obtain ⟨rfl, -⟩ := List.cons.inj hsplit
    cases (hbinary.symm.trans hkept).trans (Outcome.eq_ok_of_toOption hnone)
  · obtain ⟨-, hsplit⟩ := List.cons.inj hsplit
    obtain ⟨rfl, -⟩ := List.cons.inj hsplit
    obtain rfl := Except.ok.inj (hname'.symm.trans (Outcome.eq_ok_of_toOption hname))
    exact ⟨root, ctx, f, hread, hsound, Outcome.eq_ok_of_toOption hf, hvalid, ctx', cause, printed',
      hblob, hrun, hbinary, hkept.trans (Outcome.eq_ok_of_toOption hold)⟩
  · have hlength := congrArg List.length hsplit
    simp at hlength

end Offload.Cubin
