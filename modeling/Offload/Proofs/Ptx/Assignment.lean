import Offload.Proofs.Ptx.Symbols

/-!
# Values without registers

A value gets a register when its instruction is written, and the blocks are written in the order in
which they stand. So whether a function can be written does not depend on the order of its
execution: a value must be assigned earlier in the text than it is looked up. A well-formed module
may have its blocks in another order (`not_forall_noRegister`).

What a step of writing looks up and assigns is known from the instruction (`Accesses`), and over a
list of instructions it is computed from the end (`awaited`), as live values are. A value without
a register is the only reason for the error that says so, and it always stops the writing
(`emit_noRegister`).
-/

namespace Offload.Device

/-! ## What instructions look up and assign -/

/-- The name of an operand that is a value. -/
def Operand.names (o : Operand) : List String := o.asValue?.toList

/-- The value of an instruction, if there is one. -/
def Instruction.defines (i : Instruction) : List String :=
  if i.action.resultType = .void then [] else i.result.toList

/-- The value that gets a register when an instruction is written. A barrier has none. -/
def Instruction.assigns (i : Instruction) : List String :=
  if i.action.callee? = some "llvm.nvvm.barrier0" then [] else i.defines

/-- The values that must have registers when an instruction is written. The arguments of a function
    of the device are not looked at, and an index may be the value of its own instruction. -/
def Instruction.awaits (i : Instruction) : List String :=
  match i.action with
  | .call _ callee args =>
    if "llvm.".toList.isPrefixOf callee.toList then [] else args.flatMap (·.2.names)
  | .address _ _ base _ index => base.names ++ index.names.filter (· ∉ i.defines)
  | a => a.operands.flatMap (·.names)

/-- The values that must have registers before instructions are written in a row. -/
def awaited : List Instruction → List String
  | [] => []
  | i :: is => i.awaits ++ (awaited is).filter (· ∉ i.assigns)

variable {v : String}

theorem mem_awaited_append {is js : List Instruction} : v ∈ awaited (is ++ js) ↔
    v ∈ awaited is ++ (awaited js).filter (· ∉ is.flatMap (·.assigns)) := by
  induction is with
  | nil => simp [awaited]
  | cons i is ih =>
    simp only [awaited, List.cons_append, List.flatMap_cons, List.mem_append, List.mem_filter, ih]
    simp only [decide_not, Bool.not_eq_true', decide_eq_false_iff_not]
    tauto

/-- A value is awaited if an instruction awaits it that comes before it is assigned. -/
theorem mem_awaited {is : List Instruction} : v ∈ awaited is ↔
    ∃ before i after, is = before ++ i :: after ∧ v ∈ i.awaits ∧
      v ∉ before.flatMap (·.assigns) := by
  constructor
  · intro h
    induction is with
    | nil => cases h
    | cons i is ih =>
      obtain h | h := List.mem_append.1 h
      · exact ⟨[], i, is, rfl, h, List.not_mem_nil⟩
      · obtain ⟨hv, hnew⟩ := List.mem_filter.1 h
        obtain ⟨before, j, after, rfl, hj, hbefore⟩ := ih hv
        refine ⟨i :: before, j, after, rfl, hj, ?_⟩
        rw [List.flatMap_cons, List.mem_append, not_or]
        exact ⟨by simpa using hnew, hbefore⟩
  · rintro ⟨before, i, after, rfl, hi, hbefore⟩
    have hv : v ∈ awaited (i :: after) := List.mem_append_left _ hi
    exact mem_awaited_append.2
      (List.mem_append_right _ (List.mem_filter.2 ⟨hv, by simpa using hbefore⟩))

/-- A value is looked up in a function before it has got a register: neither is it a parameter, nor
    does an instruction that stands before assign it. -/
def Function.Early (f : Function) (v : String) : Prop :=
  ∃ before i after, f.instructions = before ++ i :: after ∧ v ∈ i.awaits ∧
    v ∉ f.parameters.filterMap (·.name) ∧ v ∉ before.filterMap (·.result)

end Offload.Device

namespace Offload.Ptx

open Device (BinaryOp Conversion)

/-! ## Steps of writing -/

variable {scope : Scope} {p p' : Progress} {α β : Type} {v : String}

/-- The values that have registers. -/
def Progress.values (p : Progress) : List String := p.registers.map Prod.fst

theorem Progress.mem_values : v ∈ p.values ↔ (p.registers.lookup v).isSome := by
  simp [values]

/-- A step of writing succeeds only if some values have registers, gives registers to others, and
    fails for want of a register only if one of the first has none. -/
structure Emitter.Accesses (scope : Scope) (x : Emitter α) (needs gives : List String) : Prop where
  ok : ∀ p a p', (x.run scope).run p = .ok (a, p') →
    (∀ v ∈ needs, v ∈ p.values) ∧ ∀ v, v ∈ p'.values ↔ v ∈ gives ∨ v ∈ p.values
  error : ∀ p v, (x.run scope).run p = .error (.noRegister v) → v ∈ needs ∧ v ∉ p.values

/-- A step of writing that neither looks values up nor assigns any. -/
abbrev Emitter.Quiet (scope : Scope) (x : Emitter α) : Prop := Accesses scope x [] []

namespace Emitter.Accesses

variable {x : Emitter α} {y : Emitter β} {needs needs' gives gives' : List String}

theorem congr (h : Accesses scope x needs gives) (hn : ∀ v, v ∈ needs ↔ v ∈ needs')
    (hg : ∀ v, v ∈ gives ↔ v ∈ gives') : Accesses scope x needs' gives' := by
  refine ⟨fun p a p' hrun => ?_, fun p v hrun => ?_⟩
  · obtain ⟨hknown, hvalues⟩ := h.ok p a p' hrun
    exact ⟨fun v hv => hknown v ((hn v).2 hv), fun v => by rw [hvalues, hg]⟩
  · obtain ⟨hv, hunknown⟩ := h.error p v hrun
    exact ⟨(hn v).1 hv, hunknown⟩

theorem pure {a : α} : Quiet scope (Pure.pure a) := by
  refine ⟨fun p b p' hrun => ?_, fun p v hrun => ?_⟩
  · cases hrun
    simp
  · cases hrun

/-- A failure for another reason says nothing of values. -/
theorem throw {e : EmitCause} (he : ∀ v, e ≠ .noRegister v) :
    Accesses scope (MonadExcept.throw e : Emitter α) needs gives := by
  refine ⟨fun p b p' hrun => ?_, fun p v hrun => ?_⟩
  · cases hrun
  · cases hrun
    exact absurd rfl (he v)

/-- Of two steps in a row, the second one need not find what the first one assigns. -/
theorem bind {f : α → Emitter β} (hx : Accesses scope x needs gives)
    (hf : ∀ a, Accesses scope (f a) needs' gives') :
    Accesses scope (x >>= f) (needs ++ needs'.filter (· ∉ gives)) (gives ++ gives') := by
  refine ⟨fun p b p' hrun => ?_, fun p v hrun => ?_⟩
  · obtain ⟨⟨a, q⟩, ha, hb⟩ := Outcome.bind_eq_ok.1 hrun
    obtain ⟨hknown, hvalues⟩ := hx.ok p a q ha
    obtain ⟨hknown', hvalues'⟩ := (hf a).ok q b p' hb
    refine ⟨fun v hv => ?_, fun v => ?_⟩
    · obtain hv | hv := List.mem_append.1 hv
      · exact hknown v hv
      · obtain ⟨hv, hnew⟩ := List.mem_filter.1 hv
        exact ((hvalues v).1 (hknown' v hv)).resolve_left (by simpa using hnew)
    · rw [hvalues', hvalues, List.mem_append, or_left_comm, or_assoc]
  · obtain ha | ⟨⟨a, q⟩, ha, hb⟩ := Outcome.bind_eq_error.1 hrun
    · obtain ⟨hv, hunknown⟩ := hx.error p v ha
      exact ⟨List.mem_append_left _ hv, hunknown⟩
    · obtain ⟨hv, hunknown⟩ := (hf a).error q v hb
      have hnew := not_or.1 (mt ((hx.ok p a q ha).2 v).2 hunknown)
      exact ⟨List.mem_append_right _ (List.mem_filter.2 ⟨hv, by simpa using hnew.1⟩), hnew.2⟩

/-- What follows a step that assigns nothing. -/
theorem andThen {f : α → Emitter β} (hx : Accesses scope x needs [])
    (hf : ∀ a, Accesses scope (f a) needs' gives) :
    Accesses scope (x >>= f) (needs ++ needs') gives :=
  (hx.bind hf).congr (by simp) (by simp)

/-- What is quiet at the start does not matter. -/
theorem skip {f : α → Emitter β} (hx : Quiet scope x)
    (hf : ∀ a, Accesses scope (f a) needs gives) : Accesses scope (x >>= f) needs gives :=
  hx.andThen hf

/-- All is looked up before something is assigned. -/
theorem assigning {f : α → Emitter β} (hx : Accesses scope x needs [])
    (hf : ∀ a, Accesses scope (f a) [] gives) : Accesses scope (x >>= f) needs gives :=
  (hx.andThen hf).congr (by simp) fun _ => .rfl

/-- What is quiet at the end does not matter. -/
theorem quietly {f : α → Emitter β} (hx : Accesses scope x needs gives)
    (hf : ∀ a, Quiet scope (f a)) : Accesses scope (x >>= f) needs gives :=
  (hx.bind hf).congr (by simp) (by simp)

theorem throw_bind {e : EmitCause} {f : α → Emitter β} (he : ∀ v, e ≠ .noRegister v) :
    Accesses scope ((MonadExcept.throw e : Emitter α) >>= f) needs gives := by
  refine ⟨fun p b p' hrun => ?_, fun p v hrun => ?_⟩
  · cases hrun
  · cases hrun
    exact absurd rfl (he v)

theorem ite {c : Prop} [Decidable c] {y : Emitter α} (hx : c → Accesses scope x needs gives)
    (hy : ¬c → Accesses scope y needs gives) :
    Accesses scope (if c then x else y) needs gives := by
  split
  · exact hx ‹_›
  · exact hy ‹_›

theorem read : Quiet scope (MonadReader.read : Emitter Scope) := by
  refine ⟨fun p b p' hrun => ?_, fun p v hrun => ?_⟩
  · cases hrun
    simp
  · cases hrun

/-- What a step does in its own surroundings. -/
theorem read_bind {f : Scope → Emitter β} (h : Accesses scope (f scope) needs gives) :
    Accesses scope (MonadReader.read >>= f) needs gives :=
  ⟨fun p b p' hrun => h.ok p b p' hrun, fun p v hrun => h.error p v hrun⟩

theorem get : Quiet scope (MonadState.get : Emitter Progress) := by
  refine ⟨fun p b p' hrun => ?_, fun p v hrun => ?_⟩
  · cases hrun
    simp
  · cases hrun

theorem modify {f : Progress → Progress} (h : ∀ p, (f p).registers = p.registers) :
    Quiet scope (modify f : Emitter Unit) := by
  refine ⟨fun p b p' hrun => ?_, fun p v hrun => ?_⟩
  · cases hrun
    simp [Progress.values, h]
  · cases hrun

theorem lift {x : Except EmitCause α} (h : ∀ v, x ≠ .error (.noRegister v)) :
    Quiet scope (liftM x : Emitter α) := by
  cases x with
  | ok a =>
    change Quiet scope (Pure.pure a)
    exact .pure
  | error e => exact throw fun v he => h v (congrArg _ he)

theorem mapM {f : α → Emitter β} {as : List α} {needs : α → List String}
    (h : ∀ a ∈ as, Accesses scope (f a) (needs a) []) :
    Accesses scope (as.mapM f) (as.flatMap needs) [] := by
  induction as with
  | nil => exact .pure
  | cons a as ih =>
    rw [List.mapM_cons]
    refine (h a List.mem_cons_self).andThen fun b => ?_
    exact (ih fun a ha => h a (List.mem_cons_of_mem _ ha)).quietly fun _ => .pure

theorem mapM_quiet {f : α → Emitter β} {as : List α} (h : ∀ a ∈ as, Quiet scope (f a)) :
    Quiet scope (as.mapM f) :=
  (mapM h).congr (by simp) fun _ => .rfl

end Emitter.Accesses

namespace Emitter

variable {type : Device.DataType} {o : Device.Operand} {i : Device.Instruction}

/-! ### Steps that do not look at the target -/

theorem quiet_line {l : Line} : Quiet scope (line l) := .modify fun _ => rfl

theorem quiet_code {i : Instruction} : Quiet scope (code i) := quiet_line

theorem quiet_fresh {c : RegisterClass} : Quiet scope (fresh c) :=
  Accesses.get.quietly fun _ => Accesses.quietly (.modify fun _ => rfl) fun _ => .pure

theorem quiet_functionSymbol : Quiet scope functionSymbol := .read_bind .pure

theorem quiet_blockLabel {label : String} : Quiet scope (blockLabel label) :=
  quiet_functionSymbol.quietly fun _ => .pure

theorem accesses_assign {name : String} {r : Register} :
    Accesses scope (assign name r) [] [name] := by
  refine ⟨fun p b p' hrun => ?_, fun p v hrun => ?_⟩
  · cases hrun
    simp [Progress.values]
  · cases hrun

/-- A value is looked up in the registers. -/
theorem run_value {name : String} : ((value type (.value name)).run scope).run p =
    match p.registers.lookup name with
    | some r => .ok (.register r, p)
    | none => .error (.noRegister name) := by
  change ((match p.registers.lookup name with
    | some r => Pure.pure (.register r)
    | none => MonadExcept.throw (.noRegister name) : Emitter Operand).run scope).run p = _
  cases p.registers.lookup name <;> rfl

theorem accesses_value : Accesses scope (value type o) o.names [] := by
  cases o with
  | value name =>
    refine ⟨fun p b p' hrun => ?_, fun p v hrun => ?_⟩
    · rw [run_value] at hrun
      cases hr : p.registers.lookup name <;> rw [hr] at hrun <;> cases hrun
      exact ⟨List.forall_mem_singleton.2 (Progress.mem_values.2 (hr ▸ rfl)), by simp⟩
    · rw [run_value] at hrun
      cases hr : p.registers.lookup name <;> rw [hr] at hrun <;> cases hrun
      exact ⟨List.mem_singleton_self name, fun h => by simp [Progress.mem_values, hr] at h⟩
  | _ => exact .pure

theorem quiet_floatOpcode {op : BinaryOp} {contract : Bool} :
    Quiet scope (floatOpcode op contract) := by
  cases op <;> first | exact .pure | exact .throw (by simp)

theorem quiet_predicateOpcode {op : BinaryOp} : Quiet scope (predicateOpcode op) := by
  cases op <;> first | exact .pure | exact .throw (by simp)

theorem accesses_branch {condition : Device.Operand} {thenTarget elseTarget : String} :
    Accesses scope (branch condition thenTarget elseTarget) condition.names [] := by
  refine quiet_blockLabel.andThen fun _ => quiet_blockLabel.andThen fun _ => ?_
  split
  · exact quiet_code
  · exact accesses_value.quietly fun _ => quiet_code.quietly fun _ => quiet_code

/-! ### Lines, registers and operands -/

variable [TripleLibrary]

theorem quiet_registerClass : Quiet scope (liftM (scope.target.registerClass type)) :=
  .lift fun v h => by cases type <;> cases h

theorem quiet_freshFor : Quiet scope (freshFor type) :=
  .read_bind (quiet_registerClass.quietly fun _ => quiet_fresh)

theorem quiet_moveType : Quiet scope (moveType type) := by
  refine .read_bind (.lift fun v h => ?_)
  rw [Target.moveType] at h
  obtain h | ⟨c, -, h⟩ := Outcome.bind_eq_error.1 h
  · cases type <;> cases h
  · cases c <;> cases h

theorem accesses_define : Accesses scope (define i) [] i.defines := by
  rw [define, Device.Instruction.defines]
  cases i.result with
  | none => exact .throw (by simp)
  | some name =>
    by_cases hvoid : i.action.resultType = .void
    · -- there is no register for no data
      rw [hvoid]
      refine ⟨fun p b p' hrun => ?_, fun p v hrun => ?_⟩
      · cases hrun
      · cases hrun
    · rw [if_neg hvoid]
      exact quiet_freshFor.skip fun _ => accesses_assign.quietly fun _ => .pure

theorem accesses_register : Accesses scope (register type o) o.names [] := by
  refine accesses_value.quietly fun v => .ite (fun _ => .pure) fun _ => .read_bind ?_
  refine quiet_registerClass.quietly fun c => quiet_fresh.quietly fun r => ?_
  refine .ite (fun _ => ?_) fun _ => quiet_moveType.quietly fun _ => ?_
  · exact quiet_code.quietly fun _ => .pure
  · exact quiet_code.quietly fun _ => .pure

/-! ### Instructions -/

theorem quiet_intOpcode {op : BinaryOp} : Quiet scope (intOpcode op type) := by
  refine .read_bind ?_
  cases op <;> first | exact .pure | exact .throw (by simp)

/-- The value of an instruction gets its register after the operands were looked up. -/
theorem Accesses.defining {x : Emitter α} {f : α → Register → Emitter Unit} {needs : List String}
    (hx : Accesses scope x needs []) (hf : ∀ a r, Quiet scope (f a r)) :
    Accesses scope (x >>= fun a => define i >>= f a) needs i.defines :=
  hx.assigning fun a => accesses_define.quietly (hf a)

theorem accesses_binary {op : BinaryOp} {lhs rhs : Device.Operand} :
    Accesses scope (binary i op type lhs rhs) (lhs.names ++ rhs.names) i.defines := by
  refine accesses_value.andThen fun _ => accesses_value.defining fun _ _ => ?_
  refine .ite (fun _ => ?_) fun _ => .ite (fun _ => ?_) fun _ => ?_
  · exact quiet_moveType.quietly fun _ => quiet_floatOpcode.quietly fun _ => quiet_code
  · exact quiet_predicateOpcode.quietly fun _ => quiet_code
  · exact quiet_intOpcode.quietly fun _ => quiet_code

theorem accesses_convert {op : Conversion} {source target : Device.DataType} :
    Accesses scope (convert i op source o target) o.names i.defines := by
  refine accesses_register.defining fun _ _ => .read_bind ?_
  dsimp only
  split
  all_goals first
    | exact quiet_code
    | exact quiet_moveType.quietly fun _ => quiet_code
    | exact quiet_moveType.quietly fun _ => quiet_moveType.quietly fun _ => quiet_code
    | exact quiet_freshFor.quietly fun _ => quiet_code.quietly fun _ => quiet_code
    | exact .throw (by simp)

theorem accesses_alloca : Accesses scope (alloca i type) [] i.defines := by
  refine .read_bind (quiet_functionSymbol.skip fun _ => Accesses.get.skip fun _ => ?_)
  refine .skip (.modify fun _ => rfl) fun _ => quiet_moveType.defining fun _ _ => ?_
  exact quiet_code.quietly fun _ => quiet_code

/-- An index is looked up after the value of its instruction has got its register. -/
theorem accesses_address {element indexType : Device.DataType} {base index : Device.Operand} :
    Accesses scope (address i element base indexType index)
      (base.names ++ index.names.filter (· ∉ i.defines)) i.defines := by
  refine .read_bind (accesses_register.andThen fun _ => ?_)
  refine (accesses_define.bind fun _ => ?_ : Accesses scope _ ([] ++ _) (_ ++ [])).congr
    (fun _ => .rfl) (by simp)
  split
  · exact quiet_code
  · refine accesses_value.quietly fun _ => .ite (fun _ => ?_) fun _ => ?_
    · exact quiet_code
    · exact quiet_code

theorem accesses_intrinsic {callee : String} : Accesses scope (intrinsic i callee) []
    (if callee = "llvm.nvvm.barrier0" then [] else i.defines) := by
  rw [intrinsic]
  split
  · exact quiet_code
  · cases after? "llvm.nvvm.read.ptx.sreg." callee with
    | none => exact .throw (by simp)
    | some name => exact accesses_define.quietly fun _ => quiet_code

theorem quiet_arguments {args : List (Device.DataType × Operand)} :
    Quiet scope (arguments args) :=
  .read_bind (.mapM_quiet fun _ _ => quiet_code.skip fun _ => quiet_code.quietly fun _ => .pure)

theorem accesses_call {returnType : Device.DataType} {callee : String}
    {args : List (Device.DataType × Device.Operand)}
    (hdevice : ¬"llvm.".toList.isPrefixOf callee.toList)
    (hvoid : returnType = .void → i.defines = []) :
    Accesses scope (call i returnType callee args) (args.flatMap (·.2.names)) i.defines := by
  rw [call, if_neg hdevice]
  refine .read_bind (.ite (fun _ => .throw_bind (by simp)) fun _ => ?_)
  have hregisters : Accesses scope _ (args.flatMap (·.2.names)) [] := .mapM fun a _ =>
    (accesses_register.quietly fun v => .pure : Accesses scope
      (do return (a.1, ← register a.1 a.2)) a.2.names [])
  refine hregisters.assigning fun _ => quiet_line.skip fun _ => quiet_arguments.skip fun _ => ?_
  refine .ite (fun h => ?_) fun _ => ?_
  · rw [hvoid h]
    exact quiet_code.skip fun _ => quiet_line
  · refine Accesses.read.skip fun _ => quiet_code.skip fun _ => quiet_code.skip fun _ => ?_
    exact accesses_define.quietly fun _ =>
      quiet_moveType.skip fun _ => quiet_code.skip fun _ => quiet_line

theorem accesses_ret {returned : Option (Device.DataType × Device.Operand)} :
    Accesses scope (ret returned) (returned.toList.flatMap (·.2.names)) [] := by
  cases returned with
  | none => exact quiet_code
  | some a =>
    refine .read_bind (.ite (fun _ => .throw_bind (by simp)) fun _ => ?_)
    refine (accesses_register.quietly fun _ => ?_).congr (by simp) fun _ => .rfl
    exact Accesses.read.skip fun _ => quiet_code.skip fun _ => quiet_code

/-- An instruction is written if the values that it awaits have registers, and its own value gets
    one. -/
theorem accesses_instruction : Accesses scope (instruction i) i.awaits i.assigns := by
  have hvoid (h : i.action.resultType = .void) : i.defines = [] := if_pos h
  rw [instruction, Device.Instruction.awaits, Device.Instruction.assigns]
  cases haction : i.action
  all_goals
    rw [haction] at hvoid
    simp only [Device.Action.operands, List.flatMap_cons, List.flatMap_nil, List.append_nil,
      Device.Action.callee?, reduceCtorEq, if_false, Option.some.injEq]
  case binary op type lhs rhs => exact accesses_binary
  case negate type o =>
    exact accesses_register.assigning fun _ => quiet_moveType.defining fun _ _ => quiet_code
  case compareInt comparison type lhs rhs =>
    exact accesses_register.andThen fun _ => accesses_value.assigning fun _ =>
      Accesses.read.defining fun _ _ => quiet_code
  case compareFloat comparison type lhs rhs =>
    exact accesses_register.andThen fun _ => accesses_value.assigning fun _ =>
      quiet_moveType.defining fun _ _ => quiet_code
  case convert op source o target => exact accesses_convert
  case load type pointer =>
    exact accesses_register.assigning fun _ => quiet_moveType.defining fun _ _ => quiet_code
  case store type o pointer =>
    rw [hvoid rfl]
    exact accesses_register.andThen fun _ => accesses_register.quietly fun _ =>
      quiet_moveType.skip fun _ => quiet_code
  case alloca type => exact accesses_alloca
  case address bounds element base indexType index => exact accesses_address
  case call returnType callee args =>
    by_cases hdevice : "llvm.".toList.isPrefixOf callee.toList
    · rw [if_pos hdevice, call, if_pos hdevice]
      exact accesses_intrinsic
    · have hbarrier : callee ≠ "llvm.nvvm.barrier0" := fun h => hdevice (h ▸ by decide)
      rw [if_neg hdevice, if_neg hbarrier]
      exact accesses_call hdevice hvoid
  case ret returned =>
    rw [hvoid rfl, List.flatMap_map]
    exact accesses_ret
  case jump target =>
    rw [hvoid rfl]
    exact quiet_blockLabel.skip fun _ => quiet_code
  case branch condition thenTarget elseTarget =>
    rw [hvoid rfl]
    exact accesses_branch

/-! ### Functions -/

theorem accesses_parameter {p : Device.Parameter} {n : Nat} :
    Accesses scope (parameter p n) [] p.name.toList := by
  rw [parameter]
  cases p.name with
  | none => exact .throw (by simp)
  | some name =>
    refine quiet_functionSymbol.skip fun _ => quiet_freshFor.skip fun r =>
      .ite (fun _ => quiet_fresh.skip fun _ => ?_) fun _ => quiet_moveType.skip fun _ => ?_
    · exact quiet_code.skip fun _ => quiet_code.skip fun _ => accesses_assign
    · exact quiet_code.skip fun _ => accesses_assign

theorem accesses_parameters {ps : List Device.Parameter} {n : Nat} :
    Accesses scope ((ps.zipIdx n).forM fun (p, n) => parameter p n) []
      (ps.filterMap (·.name)) := by
  induction ps generalizing n with
  | nil => exact .pure
  | cons p ps ih =>
    refine (accesses_parameter.bind fun _ => ih).congr (by simp) fun v => ?_
    cases hname : p.name <;> simp [hname]

theorem accesses_instructions {is : List Device.Instruction} :
    Accesses scope (is.forM instruction) (Device.awaited is) (is.flatMap (·.assigns)) := by
  induction is with
  | nil => exact .pure
  | cons i is ih => exact accesses_instruction.bind fun _ => ih

theorem accesses_blocks {bs : List Device.Block} :
    Accesses scope (bs.forM fun b => do
        line (.label (← blockLabel b.label))
        b.instructions.forM instruction)
      (Device.awaited (bs.flatMap (·.instructions)))
      ((bs.flatMap (·.instructions)).flatMap (·.assigns)) := by
  induction bs with
  | nil => exact .pure
  | cons b bs ih =>
    have hb : Accesses scope (do
        line (.label (← blockLabel b.label))
        b.instructions.forM instruction) _ _ :=
      quiet_blockLabel.skip fun _ => quiet_line.skip fun _ => accesses_instructions
    refine (hb.bind fun _ => ih).congr (fun v => ?_) fun v => ?_
    · rw [List.flatMap_cons, Device.mem_awaited_append]
    · rw [List.flatMap_cons, List.flatMap_append]

theorem accesses_body : Accesses scope body
    ((Device.awaited scope.function.instructions).filter
      (· ∉ scope.function.parameters.filterMap (·.name)))
    (scope.function.parameters.filterMap (·.name) ++
      scope.function.instructions.flatMap (·.assigns)) :=
  .read_bind (accesses_parameters.bind fun _ => accesses_blocks)

end Emitter

/-- A function is written only if every value has its register when it is looked up. -/
theorem awaited_of_emitFunction [TripleLibrary] {f : Function} (h : emitFunction scope = .ok f)
    (hv : v ∈ Device.awaited scope.function.instructions) :
    v ∈ scope.function.parameters.filterMap (·.name) := by
  obtain ⟨p, hp, -⟩ := lines_of_emitFunction h
  by_contra hnew
  exact List.not_mem_nil ((Emitter.accesses_body.ok _ _ _ hp).1 v
    (List.mem_filter.2 ⟨hv, by simpa using hnew⟩))

/-- The error that tells of a value without a register is about one that is looked up early. -/
theorem awaited_of_emitFunction_error [TripleLibrary] {e : EmitError} (h : emitFunction scope = .error e)
    (hcause : e.cause = .noRegister v) :
    e.function = scope.function.name ∧ v ∈ Device.awaited scope.function.instructions ∧
      v ∉ scope.function.parameters.filterMap (·.name) := by
  obtain h | ⟨_, -, h⟩ := Outcome.bind_eq_error.1 h
  · cases hbody : (Emitter.body.run scope).run .start with
    | ok answer =>
      rw [hbody] at h
      cases h
    | error c =>
      rw [hbody] at h
      cases h
      cases hcause
      obtain ⟨hv, -⟩ := Emitter.accesses_body.error _ v hbody
      obtain ⟨hv, hnew⟩ := List.mem_filter.1 hv
      exact ⟨rfl, hv, by simpa using hnew⟩
  · cases h

/-! ## Modules -/

section Module

variable {m : Device.Module} {t : Target} {f : Device.Function}

/-- In a well-formed function without values of barriers, every result gets a register. -/
theorem early_iff (hfits : f.Fits m) (hbarrier : ∀ i ∈ f.instructions,
    i.action.callee? = some "llvm.nvvm.barrier0" → i.result = none) :
    f.Early v ↔ v ∈ Device.awaited f.instructions ∧ v ∉ f.parameters.filterMap (·.name) := by
  have hassigns (i) (hi : i ∈ f.instructions) : i.assigns = i.result.toList := by
    rw [Device.Instruction.assigns, Device.Instruction.defines]
    cases hresult : i.result with
    | none => simp
    | some name =>
      have hvoid := hfits.valued i hi name hresult
      have hcallee : i.action.callee? ≠ some "llvm.nvvm.barrier0" := fun h => by
        rw [hbarrier i hi h] at hresult
        cases hresult
      rw [if_neg hcallee, if_neg hvoid]
  have hresults {before after : List Device.Instruction} {i}
      (h : f.instructions = before ++ i :: after) :
      v ∈ before.flatMap (·.assigns) ↔ v ∈ before.filterMap (·.result) := by
    rw [List.mem_flatMap, List.mem_filterMap]
    refine exists_congr fun j => and_congr_right fun hj => ?_
    rw [hassigns j (h ▸ List.mem_append_left _ hj), Option.mem_toList]
  rw [Device.Function.Early, Device.mem_awaited]
  constructor
  · rintro ⟨before, i, after, hsplit, hi, hparameter, hbefore⟩
    exact ⟨⟨before, i, after, hsplit, hi, mt (hresults hsplit).1 hbefore⟩, hparameter⟩
  · rintro ⟨⟨before, i, after, hsplit, hi, hbefore⟩, hparameter⟩
    exact ⟨before, i, after, hsplit, hi, hparameter, mt (hresults hsplit).2 hbefore⟩

/-- A well-formed module is not written for want of a register only if a function looks a value up
    early; and if one does, it is not written. -/
theorem emit_noRegister [TripleLibrary] (hdefects : m.defects = [])
    (hbarrier : ∀ f ∈ m.functions, ∀ i ∈ f.instructions,
      i.action.callee? = some "llvm.nvvm.barrier0" → i.result = none) :
    (∀ e v, emit t m = .error e → e.cause = .noRegister v →
      ∃ f ∈ m.functions, f.isDeclaration = false ∧ f.name = e.function ∧ f.Early v) ∧
    ∀ f ∈ m.functions, f.isDeclaration = false → ∀ v, f.Early v → ¬(emit t m).isOk := by
  have hfits := (Device.Module.defects_eq_nil_iff.1 hdefects).fits
  refine ⟨fun e v hrun hcause => ?_, fun f hf hbody v hearly hok => ?_⟩
  · obtain hrun | ⟨_, -, hrun⟩ := Outcome.bind_eq_error.1 hrun
    · obtain ⟨f, hf, hemit⟩ := Outcome.exists_of_mapM_eq_error hrun
      obtain ⟨hf, hbody⟩ := List.mem_filter.1 hf
      have hbody : f.isDeclaration = false := by simpa using hbody
      obtain ⟨hname, hv⟩ := awaited_of_emitFunction_error hemit hcause
      exact ⟨f, hf, hbody, hname.symm, (early_iff (hfits f hf hbody) (hbarrier f hf)).2 hv⟩
    · cases hrun
  · obtain ⟨a, ha⟩ := Outcome.exists_of_isOk hok
    obtain ⟨hv, hnew⟩ := (early_iff (hfits f hf hbody) (hbarrier f hf)).1 hearly
    obtain ⟨g, -, hemit⟩ := Outcome.exists_of_mem_left (emit_eq_ok ha).2.2
      (List.mem_filter.2 ⟨hf, by simpa using hbody⟩)
    exact hnew (awaited_of_emitFunction hemit hv)

/-- A function with a block that returns a value and stands before the block that computes it. -/
def backwards : Device.Function where
  name := "f"
  linkage := .external
  returnType := .i32
  parameters := []
  blocks :=
    [⟨"entry", [{ result := none, action := .jump "last" }]⟩,
      ⟨"first", [{ result := none, action := .ret (some (.i32, .value "x")) }]⟩,
      ⟨"last", [{ result := some "x", action := .binary .add .i32 (.int 1) (.int 2) },
        { result := none, action := .jump "first" }]⟩]

def backwardsCode : Device.Module where
  name := "m"
  functions := [backwards]

local instance : TripleLibrary := cudaLibrary

theorem emit_noRegister_backwards : ¬(emit wideTarget backwardsCode).isOk := by
  have hearly : backwards.Early "x" := ⟨backwards.instructions.take 1,
    { result := none, action := .ret (some (.i32, .value "x")) }, backwards.instructions.drop 2,
    by decide, by decide, by decide, by decide⟩
  exact (emit_noRegister (by decide +kernel) (by decide +kernel)).2 backwards
    (List.mem_singleton_self _) rfl "x" hearly

/-- A module may be well formed and still lack a register. -/
theorem not_forall_noRegister : ¬∀ (t : Target) (m : Device.Module) (e : EmitError) (v : String),
    m.defects = [] → emit t m = .error e → e.cause ≠ .noRegister v := by
  intro h
  have hrun : emit wideTarget backwardsCode = .error ⟨"f", .noRegister "x"⟩ := by rfl
  exact h wideTarget backwardsCode _ "x" (by decide +kernel) hrun rfl

end Module

end Offload.Ptx
