import Offload.Proofs.Access
import Offload.Proofs.Device.Typing
import Offload.Proofs.Outcome
import Offload.Ptx.Emit

/-!
# Classes of registers

An instruction of the assembly takes every register in it to be of a class, which follows from its
type (`Instruction.uses`). A value gets a register of the class of its own type. So the classes
agree if the code is well typed (`emitFunction_sound`): in each instruction that is written every
register is of the class that is asked for, with the exception of floating-point numbers that are
passed to a function or returned. These are stored by their bits (`Instruction.PassesFloat`).
-/

namespace Offload.Ptx

open Device (BinaryOp Conversion)

/-! ## Instructions -/

/-- The class of the registers that hold addresses. -/
def Target.addressClass [TripleLibrary] (t : Target) : RegisterClass := if t.isWide then .b64 else .b32

/-- If an operand is a register, it is of a class. -/
def Operand.Takes (o : Operand) (c : RegisterClass) : Prop := ∀ r ∈ o.asRegister?, r.cls = c

namespace Instruction

/-- What an instruction reads and writes, with the classes that registers are to have there. A
    predicate decides on a branch or a selection, is set by a comparison, or is computed with at its
    own type; an address is read in the width of addresses. -/
def uses [TripleLibrary] (t : Target) : Instruction → List (Operand × RegisterClass)
  | unary _ type dst src => [(.register dst, type.cls), (src, type.cls)]
  | binary _ type dst lhs rhs => [(.register dst, type.cls), (lhs, type.cls), (rhs, type.cls)]
  | multiplyAdd wide type dst index _ base =>
    let sum := if wide then RegisterClass.b64 else type.cls
    [(.register dst, sum), (index, type.cls), (base, sum)]
  | compare _ type dst lhs rhs => [(.register dst, .pred), (lhs, type.cls), (rhs, type.cls)]
  | select type dst _ _ selector => [(.register dst, type.cls), (selector, .pred)]
  | convert _ target source dst src => [(.register dst, target.cls), (src, source.cls)]
  | load _ type dst address => [(.register dst, type.cls), (address, t.addressClass)]
  | store _ type address value => [(address, t.addressClass), (value, type.cls)]
  | branch guard _ => [(guard, .pred)]
  | parameter .. | call .. | ret | jump _ | barrier => []

/-- Every register is of the class that the instruction asks for. -/
def Strict [TripleLibrary] (t : Target) (i : Instruction) : Prop := ∀ u ∈ i.uses t, u.1.Takes u.2

/-- The types of bits, with the classes of the floating-point numbers of their width. -/
def floatBits : List (DataType × RegisterClass) := [(.b32, .f32), (.b64, .f64)]

/-- The instruction stores the bits of a floating-point number for a call or a return. -/
def PassesFloat (i : Instruction) : Prop :=
  ∃ type name r, i = .store ".param" type (.symbol name) (.register r) ∧ (type, r.cls) ∈ floatBits

/-- Registers are of the classes asked for, or the bits of a floating-point number are passed. -/
def Sound [TripleLibrary] (t : Target) (i : Instruction) : Prop := i.Strict t ∨ i.PassesFloat

instance [TripleLibrary] (t : Target) (i : Instruction) : Decidable (i.Strict t) :=
  inferInstanceAs (Decidable (∀ u ∈ i.uses t, ∀ r ∈ u.1.asRegister?, r.cls = u.2))

variable {u v w : Operand × RegisterClass}

theorem takes_two (hu : u.1.Takes u.2) (hv : v.1.Takes v.2) : ∀ x ∈ [u, v], x.1.Takes x.2 :=
  List.forall_mem_cons.2 ⟨hu, List.forall_mem_singleton.2 hv⟩

theorem takes_three (hu : u.1.Takes u.2) (hv : v.1.Takes v.2) (hw : w.1.Takes w.2) :
    ∀ x ∈ [u, v, w], x.1.Takes x.2 :=
  List.forall_mem_cons.2 ⟨hu, takes_two hv hw⟩

end Instruction

theorem Operand.takes_register {r : Register} {c : RegisterClass} (h : r.cls = c) :
    (Operand.register r).Takes c := by
  intro s hs
  obtain rfl := Option.some.inj hs
  exact h

theorem Operand.takes_of_none {o : Operand} (h : o.asRegister? = none) (c : RegisterClass) :
    o.Takes c := by
  intro r hr
  rw [h] at hr
  cases hr

/-! ## Types -/

namespace Target

variable [TripleLibrary] {t : Target} {type : Device.DataType} {c : RegisterClass} {d : DataType}

theorem registerClass_ptr : t.registerClass .ptr = .ok t.addressClass := rfl

theorem addressType_cls : t.addressType.cls = t.addressClass := by
  rw [addressType, addressClass]
  split <;> rfl

/-- Data are moved in registers of their class. -/
theorem registerClass_of_moveType (h : t.moveType type = .ok d) :
    t.registerClass type = .ok d.cls := by
  rw [moveType] at h
  obtain ⟨c, hc, h⟩ := Outcome.bind_eq_ok.1 h
  rw [hc]
  cases c <;> cases h <;> rfl

/-- Integers other than single bits are computed with in registers of their class. -/
theorem intType_cls (h : t.registerClass type = .ok c) (hbit : type ≠ .i1)
    (hfloat : ¬type.isFloat) : (t.intType type).cls = c := by
  cases type with
  | i1 => exact absurd rfl hbit
  | float | double => exact absurd rfl hfloat
  | void => cases h
  | i32 | i64 =>
    cases h
    rfl
  | ptr =>
    rw [registerClass_ptr] at h
    cases h
    rw [intType, registerClass_ptr, addressClass]
    cases t.isWide <;> rfl

theorem bitsType_cls : (t.bitsType type).cls = (t.intType type).cls := by
  rw [bitsType]
  split
  · rw [‹t.intType type = .s64›]
    rfl
  · rename_i h
    rw [intType] at h ⊢
    split at h
    · exact absurd rfl h
    · rfl

/-- What is passed is stored by its bits. -/
theorem parameterType_cls (h : t.registerClass type = .ok c) (hbit : type ≠ .i1) :
    c = (t.parameterType false type).cls ∨
      (t.parameterType false type, c) ∈ Instruction.floatBits := by
  cases type with
  | i1 => exact absurd rfl hbit
  | void => cases h
  | float =>
    cases h
    exact .inr List.mem_cons_self
  | double =>
    cases h
    exact .inr (List.mem_cons_of_mem _ (List.mem_singleton_self _))
  | i32 | i64 =>
    cases h
    exact .inl rfl
  | ptr =>
    rw [registerClass_ptr] at h
    cases h
    left
    rw [parameterType, addressClass]
    cases t.isWide <;> rfl

end Target

/-! ## Emitters -/

variable {I : Progress → Prop} {scope : Scope} {p : Progress} {α β : Type}

/-- A step of writing keeps an invariant of what has been written, and its answer has a property. -/
def Emitter.Keeps (I : Progress → Prop) (scope : Scope) (x : Emitter α) (Q : α → Prop) : Prop :=
  ∀ p, I p → ∀ a p', (x.run scope).run p = .ok (a, p') → I p' ∧ Q a

namespace Emitter.Keeps

variable {x y : Emitter α} {Q Q' : α → Prop} {R : β → Prop}

theorem mono (h : Keeps I scope x Q) (hQ : ∀ a, Q a → Q' a) : Keeps I scope x Q' :=
  fun p hp a p' hrun => ⟨(h p hp a p' hrun).1, hQ a (h p hp a p' hrun).2⟩

theorem pure {a : α} (h : Q a) : Keeps I scope (Pure.pure a) Q := by
  intro p hp b p' hrun
  cases hrun
  exact ⟨hp, h⟩

theorem throw {e : EmitCause} : Keeps I scope (MonadExcept.throw e : Emitter α) Q := by
  intro p hp b p' hrun
  cases hrun

theorem bind {f : α → Emitter β} (hx : Keeps I scope x Q)
    (hf : ∀ a, Q a → Keeps I scope (f a) R) : Keeps I scope (x >>= f) R := by
  intro p hp b p' hrun
  obtain ⟨⟨a, next⟩, ha, hrun⟩ := Outcome.bind_eq_ok.1 hrun
  obtain ⟨hnext, hQ⟩ := hx p hp a next ha
  exact hf a hQ next hnext b p' hrun

theorem throw_bind {e : EmitCause} {f : α → Emitter β} :
    Keeps I scope ((MonadExcept.throw e : Emitter α) >>= f) R := by
  intro p hp b p' hrun
  cases hrun

theorem ite {c : Prop} [Decidable c] (hx : c → Keeps I scope x Q)
    (hy : ¬c → Keeps I scope y Q) : Keeps I scope (if c then x else y) Q := by
  split
  · exact hx ‹_›
  · exact hy ‹_›

theorem read : Keeps I scope (MonadReader.read : Emitter Scope) (scope = ·) := by
  intro p hp s p' hrun
  cases hrun
  exact ⟨hp, rfl⟩

theorem get : Keeps I scope (MonadState.get : Emitter Progress) I := by
  intro p hp q p' hrun
  cases hrun
  exact ⟨hp, hp⟩

theorem modify {f : Progress → Progress} (h : ∀ p, I p → I (f p)) :
    Keeps I scope (modify f : Emitter Unit) fun _ => True := by
  intro p hp q p' hrun
  cases hrun
  exact ⟨h p hp, trivial⟩

theorem lift (x : Except EmitCause α) : Keeps I scope (liftM x : Emitter α) (x = .ok ·) := by
  cases x with
  | ok a =>
    change Keeps I scope (Pure.pure a) _
    exact .pure rfl
  | error e =>
    intro p hp a p' hrun
    cases hrun

theorem mapM {f : α → Emitter β} {as : List α} (h : ∀ a ∈ as, Keeps I scope (f a) R) :
    Keeps I scope (as.mapM f) fun bs => ∀ b ∈ bs, R b := by
  induction as with
  | nil => exact .pure nofun
  | cons a as ih =>
    rw [List.mapM_cons]
    refine (h a List.mem_cons_self).bind fun b hb => ?_
    refine (ih fun a ha => h a (List.mem_cons_of_mem _ ha)).bind fun bs hbs => ?_
    exact .pure (List.forall_mem_cons.2 ⟨hb, hbs⟩)

theorem forM {f : α → Emitter PUnit} {as : List α}
    (h : ∀ a ∈ as, Keeps I scope (f a) fun _ => True) :
    Keeps I scope (as.forM f) fun _ => True := by
  induction as with
  | nil => exact .pure trivial
  | cons a as ih =>
    change Keeps I scope (f a >>= fun _ => as.forM f) _
    exact (h a List.mem_cons_self).bind fun _ _ => ih fun a ha => h a (List.mem_cons_of_mem _ ha)

end Emitter.Keeps

variable [TripleLibrary] {Γ : String → Device.DataType}

/-- Every value is in a register of the class of its type, and what has been written is sound. -/
structure Progress.Sound (Γ : String → Device.DataType) (t : Target) (p : Progress) : Prop where
  registers : ∀ e ∈ p.registers, t.registerClass (Γ e.1) = .ok e.2.cls
  lines : ∀ i, Line.code i ∈ p.lines → i.Sound t

/-- A step of writing keeps what is written sound, and its answer has a property. -/
def Emitter.Ensures (Γ : String → Device.DataType) (scope : Scope) (x : Emitter α)
    (Q : α → Prop) : Prop :=
  Keeps (·.Sound Γ scope.target) scope x Q

namespace Emitter

/-! ### Registers and operands -/

variable {type : Device.DataType} {o : Device.Operand} {i : Device.Instruction}

/-- If an operand is a register, it is one for data of a type. -/
def Holds (t : Target) (type : Device.DataType) (o : Operand) : Prop :=
  ∀ r ∈ o.asRegister?, t.registerClass type = .ok r.cls

/-- An operand is read at its type. -/
def ReadAt (Γ : String → Device.DataType) (type : Device.DataType) (o : Device.Operand) : Prop :=
  ∀ name, o = .value name → Γ name = type

theorem ensures_line (l : Line) (h : ∀ i, l = .code i → i.Sound scope.target) :
    Ensures Γ scope (line l) fun _ => True := by
  refine .modify fun p hp => ⟨hp.registers, fun i hi => ?_⟩
  obtain hi | hi := List.mem_cons.1 hi
  · exact h i hi.symm
  · exact hp.lines i hi

theorem ensures_code {i : Instruction} (h : i.Sound scope.target) :
    Ensures Γ scope (code i) fun _ => True :=
  ensures_line _ fun _ heq => Line.code.inj heq ▸ h

/-- Writing an instruction all registers of which are of the classes asked for. -/
theorem ensures_strict {i : Instruction} (h : i.Strict scope.target) :
    Ensures Γ scope (code i) fun _ => True :=
  ensures_code (.inl h)

theorem ensures_registerless {i : Instruction} (h : i.uses scope.target = []) :
    Ensures Γ scope (code i) fun _ => True :=
  ensures_strict fun u hu => by rw [h] at hu; cases hu

theorem ensures_fresh (c : RegisterClass) : Ensures Γ scope (fresh c) (·.cls = c) := by
  refine Keeps.get.bind fun p _ => ?_
  refine (Keeps.modify ?_).bind fun _ _ => .pure rfl
  exact fun p hp => ⟨hp.registers, hp.lines⟩

theorem ensures_freshFor (type : Device.DataType) :
    Ensures Γ scope (freshFor type) (scope.target.registerClass type = .ok ·.cls) := by
  refine Keeps.read.bind ?_
  rintro _ rfl
  refine (Keeps.lift _).bind fun c hc => ?_
  exact (ensures_fresh c).mono fun r hr => hr ▸ hc

theorem ensures_moveType (type : Device.DataType) :
    Ensures Γ scope (moveType type) (scope.target.registerClass type = .ok ·.cls) := by
  refine Keeps.read.bind ?_
  rintro _ rfl
  exact (Keeps.lift _).mono fun d hd => Target.registerClass_of_moveType hd

theorem ensures_assign {name : String} {r : Register}
    (h : scope.target.registerClass (Γ name) = .ok r.cls) :
    Ensures Γ scope (assign name r) fun _ => True :=
  .modify fun _ hp => ⟨List.forall_mem_cons.2 ⟨h, hp.registers⟩, hp.lines⟩

/-- The value of an instruction gets a register for data of its type. -/
theorem ensures_define (h : ∀ name ∈ i.result, Γ name = i.action.resultType) :
    Ensures Γ scope (define i) (scope.target.registerClass i.action.resultType = .ok ·.cls) := by
  rw [define]
  cases hresult : i.result with
  | none => exact .throw
  | some name =>
    refine (ensures_freshFor _).bind fun r hr => ?_
    have hname : Γ name = i.action.resultType := h name hresult
    exact (ensures_assign (hname ▸ hr)).bind fun _ _ => .pure hr

/-- An operand that is a value stands in its register. -/
theorem ensures_value (h : ReadAt Γ type o) :
    Ensures Γ scope (value type o) (Holds scope.target type) := by
  cases o with
  | value name =>
    refine Keeps.get.bind fun p hp => ?_
    cases hr : p.registers.lookup name with
    | none => exact .throw
    | some r =>
      refine .pure fun s hs => ?_
      obtain rfl := Option.some.inj hs
      exact h name rfl ▸ hp.registers (name, r) (Position.mem_of_lookup hr)
  | symbol name => exact .pure nofun
  | int n => exact .pure nofun
  | float x =>
    refine .pure ?_
    split <;> exact nofun

theorem ensures_value_constant (h : o.isConstant) :
    Ensures Γ scope (value type o) (·.asRegister? = none) := by
  cases o with
  | int n => exact .pure rfl
  | float x =>
    refine .pure ?_
    split <;> rfl
  | _ => cases h

/-- A constant is put into a register of the class of its type. -/
theorem ensures_register (h : ReadAt Γ type o) :
    Ensures Γ scope (register type o) (Holds scope.target type) := by
  rw [register]
  cases hconstant : o.isConstant with
  | false => exact (ensures_value h).bind fun v hv => .pure hv
  | true =>
    refine (ensures_value_constant hconstant).bind fun v hv => Keeps.read.bind ?_
    rintro _ rfl
    refine (Keeps.lift _).bind fun c hc => (ensures_fresh c).bind fun r hr => ?_
    have hholds : Holds scope.target type (.register r) := by
      intro s hs
      obtain rfl := Option.some.inj hs
      rwa [hr]
    dsimp only
    refine Keeps.ite (fun hpred => ?_) fun _ => ?_
    · refine (ensures_strict ?_).bind fun _ _ => .pure hholds
      exact Instruction.takes_three (Operand.takes_register (hr.trans hpred))
        (Operand.takes_of_none rfl _) (Operand.takes_of_none rfl _)
    · refine (ensures_moveType type).bind fun d hd => ?_
      refine (ensures_strict ?_).bind fun _ _ => .pure hholds
      refine Instruction.takes_two (Operand.takes_register ?_) (Operand.takes_of_none hv _)
      exact hr.trans (Except.ok.inj (hc.symm.trans hd))

/-! ### Instructions -/

variable {t : Target} {v : Operand} {r : Register} {c : RegisterClass}
  {result : Option String} {contract : Bool} {debug : Option Device.NodeRef}

/-- An operand for data of a type is of any class that this type can have. -/
theorem Holds.takes (h : Holds t type v)
    (hc : ∀ c', t.registerClass type = .ok c' → c' = c) : v.Takes c :=
  fun r hr => hc r.cls (h r hr)

theorem Holds.takes_cls (h : Holds t type v) (hr : t.registerClass type = .ok c) : v.Takes c :=
  h.takes fun _ hc' => Except.ok.inj (hc'.symm.trans hr)

theorem ensures_floatOpcode (op : BinaryOp) (contract : Bool) :
    Ensures Γ scope (floatOpcode op contract) fun _ => True := by
  cases op <;> first | exact .pure trivial | exact .throw

theorem ensures_predicateOpcode (op : BinaryOp) :
    Ensures Γ scope (predicateOpcode op) fun _ => True := by
  cases op <;> first | exact .pure trivial | exact .throw

/-- Integers are computed with at a type of their class. -/
theorem ensures_intOpcode (op : BinaryOp) (hc : scope.target.registerClass type = .ok c)
    (hbit : type ≠ .i1) (hfloat : ¬type.isFloat) :
    Ensures Γ scope (intOpcode op type) (·.2.cls = c) := by
  refine Keeps.read.bind ?_
  rintro _ rfl
  have hint := Target.intType_cls hc hbit hfloat
  cases op <;> first
    | exact .pure hint
    | exact .pure (Target.bitsType_cls.trans hint)
    | exact .throw

theorem ensures_binary {op : BinaryOp} {lhs rhs : Device.Operand}
    (haction : i.action = .binary op type lhs rhs)
    (hresult : ∀ name ∈ i.result, Γ name = i.action.resultType)
    (hl : ReadAt Γ type lhs) (hr : ReadAt Γ type rhs) (hregular : type.isFloat → op.isFloat) :
    Ensures Γ scope (binary i op type lhs rhs) fun _ => True := by
  refine (ensures_value hl).bind fun l hl => (ensures_value hr).bind fun r hr => ?_
  refine (ensures_define hresult).bind fun dst hdst => ?_
  rw [haction] at hdst
  have hstrict {opcode : String} {d : DataType} (hd : dst.cls = d.cls) :
      Ensures Γ scope (code (.binary opcode d dst l r)) fun _ => True :=
    ensures_strict (Instruction.takes_three (Operand.takes_register hd) (hd ▸ hl.takes_cls hdst)
      (hd ▸ hr.takes_cls hdst))
  refine .ite (fun hop => ?_) fun hop => .ite (fun hbit => ?_) fun hbit => ?_
  · refine (ensures_moveType type).bind fun d hd => ?_
    exact (ensures_floatOpcode op _).bind fun _ _ => hstrict (Except.ok.inj (hdst.symm.trans hd))
  · refine (ensures_predicateOpcode op).bind fun _ _ => hstrict ?_
    rw [hbit] at hdst
    exact (Except.ok.inj hdst).symm
  · refine (ensures_intOpcode op hdst hbit fun hfloat => hop (hregular hfloat)).bind fun d hd => ?_
    exact hstrict hd.symm

/-- A comparison of data of a type, at a type of the same class. -/
theorem ensures_compare {comparison : String} {d : DataType} {l r : Operand}
    (hresult : ∀ name ∈ i.result, Γ name = i.action.resultType)
    (hbit : i.action.resultType = .i1) (hl : l.Takes d.cls) (hr : r.Takes d.cls) :
    Ensures Γ scope (do code (.compare comparison d (← define i) l r)) fun _ => True := by
  refine (ensures_define hresult).bind fun dst hdst => ensures_strict ?_
  rw [hbit] at hdst
  exact Instruction.takes_three (Operand.takes_register (Except.ok.inj hdst).symm) hl hr

/-- A selection, and a conversion, into a register for data of a type. -/
theorem ensures_select {dst : Register} {d : DataType} {yes no : Int}
    (hsrc : Holds scope.target .i1 v) (hd : d.cls = dst.cls) :
    Ensures Γ scope (code (.select d dst yes no v)) fun _ => True :=
  ensures_strict (Instruction.takes_two (Operand.takes_register hd.symm) (hsrc.takes_cls rfl))

theorem ensures_convertTo {dst : Register} {rounding : String} {d e : DataType}
    {source target : Device.DataType} (hsrc : Holds scope.target source v)
    (hsource : scope.target.registerClass source = .ok e.cls)
    (hdst : scope.target.registerClass target = .ok dst.cls)
    (htarget : scope.target.registerClass target = .ok d.cls) :
    Ensures Γ scope (code (.convert rounding d e dst v)) fun _ => True := by
  refine ensures_strict (Instruction.takes_two (Operand.takes_register ?_)
    (hsrc.takes_cls hsource))
  exact Except.ok.inj (hdst.symm.trans htarget)

theorem ensures_convert {op : Conversion} {source target : Device.DataType}
    (haction : i.action = .convert op source o target)
    (hresult : ∀ name ∈ i.result, Γ name = i.action.resultType)
    (hread : ReadAt Γ source o) (hregular : i.action.Regular scope.target.isWide) :
    Ensures Γ scope (convert i op source o target) fun _ => True := by
  rw [haction] at hregular
  refine (ensures_register hread).bind fun src hsrc => ?_
  refine (ensures_define hresult).bind fun dst hdst => Keeps.read.bind ?_
  rintro _ rfl
  rw [haction] at hdst
  change scope.target.registerClass target = _ at hdst
  dsimp only
  split
  next =>
    exact (ensures_moveType target).bind fun d hd =>
      ensures_select hsrc (Except.ok.inj (hd.symm.trans hdst))
  next =>
    refine ensures_select hsrc ?_
    obtain rfl | rfl := hregular.1 rfl rfl <;> exact Except.ok.inj hdst
  next => exact ensures_convertTo hsrc rfl hdst rfl
  next => exact ensures_convertTo hsrc rfl hdst rfl
  next => exact ensures_convertTo hsrc rfl hdst rfl
  next =>
    -- the lowest bit is found in a register of the class of the source
    have hbits : scope.target.registerClass source =
        .ok (if source = .i64 then DataType.b64 else .b32).cls := by
      obtain rfl | rfl := hregular.2 rfl rfl <;> rfl
    refine (ensures_freshFor source).bind fun low hlow => ?_
    have hcls := Except.ok.inj (hlow.symm.trans hbits)
    refine (ensures_strict ?_).bind fun _ _ => ensures_strict ?_
    · exact Instruction.takes_three (Operand.takes_register hcls) (hsrc.takes_cls hbits)
        (Operand.takes_of_none rfl _)
    · exact Instruction.takes_three (Operand.takes_register (Except.ok.inj hdst).symm)
        (Operand.takes_register hcls) (Operand.takes_of_none rfl _)
  -- conversions between integers and floating-point numbers, and none
  all_goals first
    | exact (ensures_moveType _).bind fun d hd => ensures_convertTo hsrc rfl hdst hd
    | exact (ensures_moveType _).bind fun d hd => ensures_convertTo hsrc hd hdst rfl
    | exact .throw

theorem ensures_functionSymbol : Ensures Γ scope functionSymbol fun _ => True :=
  Keeps.read.bind fun _ _ => .pure trivial

theorem ensures_blockLabel (label : String) : Ensures Γ scope (blockLabel label) fun _ => True :=
  ensures_functionSymbol.bind fun _ _ => .pure trivial

/-- The address of a local variable is made one of memory in the same register. -/
theorem ensures_alloca (haction : i.action = .alloca type)
    (hresult : ∀ name ∈ i.result, Γ name = i.action.resultType) :
    Ensures Γ scope (alloca i type) fun _ => True := by
  refine Keeps.read.bind fun _ _ => ensures_functionSymbol.bind fun _ _ => ?_
  refine Keeps.get.bind fun _ _ => Keeps.bind (Keeps.modify ?_) fun _ _ => ?_
  · exact fun p hp => ⟨hp.registers, hp.lines⟩
  refine (ensures_moveType .ptr).bind fun d hd => (ensures_define hresult).bind fun dst hdst => ?_
  rw [haction] at hdst
  have hcls := Operand.takes_register (Except.ok.inj (hdst.symm.trans hd))
  refine (ensures_strict ?_).bind fun _ _ => ensures_strict ?_
  · exact Instruction.takes_two hcls (Operand.takes_of_none rfl _)
  · exact Instruction.takes_two hcls hcls

/-- An operand that is a constant, or is read at a type of a class. -/
theorem ensures_value_takes (h : ReadAt Γ type o)
    (hc : o.isConstant ∨ scope.target.registerClass type = .ok c) :
    Ensures Γ scope (value type o) (·.Takes c) := by
  obtain hconstant | hc := hc
  · exact (ensures_value_constant hconstant).mono fun v hv => Operand.takes_of_none hv c
  · exact (ensures_value h).mono fun v hv => hv.takes_cls hc

theorem ensures_address {bounds : Bool} {element indexType : Device.DataType}
    {base index : Device.Operand}
    (haction : i.action = .address bounds element base indexType index)
    (hresult : ∀ name ∈ i.result, Γ name = i.action.resultType)
    (hbase : ReadAt Γ .ptr base) (hindex : ReadAt Γ indexType index)
    (hregular : i.action.Regular scope.target.isWide) :
    Ensures Γ scope (address i element base indexType index) fun _ => True := by
  rw [haction] at hregular
  refine Keeps.read.bind ?_
  rintro _ rfl
  refine (ensures_register hbase).bind fun b hb => (ensures_define hresult).bind fun dst hdst => ?_
  rw [haction] at hdst
  change scope.target.registerClass .ptr = _ at hdst
  have hb := hb.takes_cls Target.registerClass_ptr
  have hdst := Operand.takes_register (Except.ok.inj (hdst.symm.trans Target.registerClass_ptr))
  have hcls := scope.target.addressType_cls
  split
  · refine ensures_strict (Instruction.takes_three ?_ ?_ (Operand.takes_of_none rfl _))
    · rwa [hcls]
    · rwa [hcls]
  have haddress : scope.target.addressClass = if scope.target.isWide then .b64 else .b32 := rfl
  by_cases hwiden : scope.target.isWide && indexType ≠ .i64
  · -- the index has 32 bits, and the address 64
    rw [Bool.and_eq_true, decide_eq_true_eq] at hwiden
    have hc : index.isConstant ∨ scope.target.registerClass indexType = .ok .b32 := by
      refine hregular.imp_right fun htype => ?_
      obtain rfl | ⟨rfl, -⟩ := htype
      · rfl
      · exact absurd rfl hwiden.2
    refine (ensures_value_takes hindex hc).bind fun x hx => .ite (fun _ => ?_) fun hno => ?_
    · rw [hwiden.1, if_pos rfl] at haddress
      exact ensures_strict (Instruction.takes_three (haddress ▸ hdst) hx (haddress ▸ hb))
    · exact absurd (by simpa using hwiden) hno
  · -- the index has the width of the address
    have hc : index.isConstant ∨
        scope.target.registerClass indexType = .ok scope.target.addressType.cls := by
      refine hregular.imp_right fun htype => ?_
      rw [hcls, haddress]
      obtain rfl | ⟨rfl, hwide⟩ := htype
      · have hnarrow : scope.target.isWide = false := by simpa using hwiden
        rw [hnarrow]
        rfl
      · rw [hwide]
        rfl
    refine (ensures_value_takes hindex hc).bind fun x hx => .ite (fun hno => ?_) fun _ => ?_
    · exact absurd hno hwiden
    · exact ensures_strict (Instruction.takes_three (hcls.symm ▸ hdst) hx (hcls.symm ▸ hb))

/-- What is passed or returned is stored soundly, if it is no single bit. -/
theorem sound_pass (hv : Holds t type v) (hbit : type ≠ .i1) (name : String) :
    (Instruction.store ".param" (t.parameterType false type) (.symbol name) v).Sound t := by
  have hstrict (h : v.Takes (t.parameterType false type).cls) :
      (Instruction.store ".param" (t.parameterType false type) (.symbol name) v).Sound t :=
    .inl (Instruction.takes_two (Operand.takes_of_none rfl _) h)
  cases v with
  | register r =>
    obtain hcls | hbits := Target.parameterType_cls (hv r rfl) hbit
    · exact hstrict (Operand.takes_register hcls)
    · exact .inr ⟨_, name, r, rfl, hbits⟩
  | _ => exact hstrict (Operand.takes_of_none rfl _)

theorem ensures_arguments {args : List (Device.DataType × Operand)}
    (hargs : ∀ a ∈ args, Holds scope.target a.1 a.2 ∧ a.1 ≠ .i1) :
    Ensures Γ scope (arguments args) fun _ => True := by
  refine Keeps.read.bind ?_
  rintro _ rfl
  refine (Keeps.mapM (R := fun _ => True) fun a ha => ?_).mono fun _ _ => trivial
  obtain ⟨⟨type, v⟩, n⟩ := a
  obtain ⟨hv, hbit⟩ := hargs _ (List.fst_mem_of_mem_zipIdx ha)
  refine (ensures_registerless rfl).bind fun _ _ => ?_
  exact (ensures_code (sound_pass hv hbit _)).bind fun _ _ => .pure trivial

omit [TripleLibrary] in
theorem isPrefixOf_of_after? {front text rest : String} (h : after? front text = some rest) :
    front.toList.isPrefixOf text.toList := by
  rw [after?] at h
  split at h
  · assumption
  · cases h

theorem ensures_intrinsic {returnType : Device.DataType} {callee : String}
    {args : List (Device.DataType × Device.Operand)}
    (haction : i.action = .call returnType callee args)
    (hresult : ∀ name ∈ i.result, Γ name = i.action.resultType)
    (hregular : i.action.Regular scope.target.isWide) :
    Ensures Γ scope (intrinsic i callee) fun _ => True := by
  rw [haction] at hregular
  refine .ite (fun _ => ensures_registerless rfl) fun _ => ?_
  cases hname : after? "llvm.nvvm.read.ptx.sreg." callee with
  | none => exact .throw
  | some name =>
    refine (ensures_define hresult).bind fun dst hdst => ensures_strict ?_
    rw [haction] at hdst
    change scope.target.registerClass returnType = _ at hdst
    rw [hregular.1 (isPrefixOf_of_after? hname)] at hdst
    exact Instruction.takes_two (Operand.takes_register (Except.ok.inj hdst).symm)
      (Operand.takes_of_none rfl _)

theorem ensures_call {returnType : Device.DataType} {callee : String}
    {args : List (Device.DataType × Device.Operand)}
    (haction : i.action = .call returnType callee args)
    (hresult : ∀ name ∈ i.result, Γ name = i.action.resultType)
    (hreads : ∀ a ∈ args, ReadAt Γ a.1 a.2) (hregular : i.action.Regular scope.target.isWide) :
    Ensures Γ scope (call i returnType callee args) fun _ => True := by
  refine .ite (fun _ => ensures_intrinsic haction hresult hregular) fun _ => Keeps.read.bind ?_
  rintro _ rfl
  rw [haction] at hregular
  refine .ite (fun _ => Keeps.throw_bind) fun _ => ?_
  refine (Keeps.mapM (R := fun b => Holds scope.target b.1 b.2 ∧ b.1 ≠ .i1) fun a ha => ?_).bind
    fun bs hbs => (ensures_line _ fun _ h => by cases h).bind fun _ _ =>
      (ensures_arguments hbs).bind fun names _ => ?_
  · exact (ensures_register (hreads a ha)).bind fun v hv => .pure ⟨hv, hregular.2 a ha⟩
  have hclose : Ensures Γ scope (line .closing) fun _ => True :=
    ensures_line _ fun _ h => by cases h
  dsimp only
  refine .ite (fun _ => (ensures_registerless rfl).bind fun _ _ => hclose) fun _ => ?_
  refine Keeps.read.bind fun _ _ => (ensures_registerless rfl).bind fun _ _ =>
    (ensures_registerless rfl).bind fun _ _ => (ensures_define hresult).bind fun dst hdst =>
      (ensures_moveType _).bind fun d hd => (ensures_strict ?_).bind fun _ _ => hclose
  rw [haction] at hdst
  exact Instruction.takes_two (Operand.takes_register (Except.ok.inj (hdst.symm.trans hd)))
    (Operand.takes_of_none rfl _)

theorem ensures_ret {returned : Option (Device.DataType × Device.Operand)}
    (hreads : ∀ a ∈ returned, ReadAt Γ a.1 a.2) (hbits : ∀ a ∈ returned, a.1 ≠ .i1) :
    Ensures Γ scope (ret returned) fun _ => True := by
  cases returned with
  | none => exact ensures_registerless rfl
  | some a =>
    obtain ⟨type, o⟩ := a
    refine Keeps.read.bind fun _ _ =>
      .ite (fun _ => Keeps.throw_bind) fun _ => ?_
    refine (ensures_register (hreads _ rfl)).bind fun v hv => Keeps.read.bind ?_
    rintro _ rfl
    exact (ensures_code (sound_pass hv (hbits _ rfl) _)).bind fun _ _ => ensures_registerless rfl

theorem ensures_branch {condition : Device.Operand} (thenTarget elseTarget : String)
    (hread : ReadAt Γ .i1 condition) :
    Ensures Γ scope (branch condition thenTarget elseTarget) fun _ => True := by
  refine (ensures_blockLabel _).bind fun _ _ => (ensures_blockLabel _).bind fun _ _ => ?_
  split
  · exact ensures_registerless rfl
  · refine (ensures_value hread).bind fun v hv => (ensures_strict ?_).bind fun _ _ =>
      ensures_registerless rfl
    exact List.forall_mem_singleton.2 (hv.takes_cls rfl)

/-- An instruction is written soundly if its value and its operands have the types that it
    says, and there is an instruction on data of these types. -/
theorem ensures_instruction (hresult : ∀ name ∈ i.result, Γ name = i.action.resultType)
    (hreads : ∀ u ∈ i.action.reads, ReadAt Γ u.1 u.2)
    (hregular : i.action.Regular scope.target.isWide) :
    Ensures Γ scope (instruction i) fun _ => True := by
  rw [instruction]
  cases haction : i.action with
  | binary op type lhs rhs =>
    rw [haction] at hreads hregular
    obtain ⟨hl, hr⟩ : ReadAt Γ type lhs ∧ ReadAt Γ type rhs := by
      simpa [Device.Action.reads] using hreads
    exact ensures_binary haction hresult hl hr hregular
  | negate type o =>
    rw [haction] at hreads
    have ho : ReadAt Γ type o := by simpa [Device.Action.reads] using hreads
    refine (ensures_register ho).bind fun v hv => ?_
    refine (ensures_moveType type).bind fun d hd => (ensures_define hresult).bind fun dst hdst => ?_
    rw [haction] at hdst
    exact ensures_strict (Instruction.takes_two
      (Operand.takes_register (Except.ok.inj (hdst.symm.trans hd))) (hv.takes_cls hd))
  | compareInt comparison type lhs rhs =>
    rw [haction] at hreads hregular
    obtain ⟨hl, hr⟩ : ReadAt Γ type lhs ∧ ReadAt Γ type rhs := by
      simpa [Device.Action.reads] using hreads
    refine (ensures_register hl).bind fun l hl =>
      (ensures_value hr).bind fun r hr => Keeps.read.bind ?_
    rintro _ rfl
    have htakes {v : Operand} (hv : Holds scope.target type v) :
        v.Takes (scope.target.intType type).cls :=
      hv.takes fun c hc => (Target.intType_cls hc hregular.1 hregular.2).symm
    exact ensures_compare hresult (by rw [haction]; rfl) (htakes hl) (htakes hr)
  | compareFloat comparison type lhs rhs =>
    rw [haction] at hreads
    obtain ⟨hl, hr⟩ : ReadAt Γ type lhs ∧ ReadAt Γ type rhs := by
      simpa [Device.Action.reads] using hreads
    refine (ensures_register hl).bind fun l hl =>
      (ensures_value hr).bind fun r hr =>
        (ensures_moveType type).bind fun d hd => ?_
    exact ensures_compare hresult (by rw [haction]; rfl) (hl.takes_cls hd) (hr.takes_cls hd)
  | convert op source o target =>
    rw [haction] at hreads
    have ho : ReadAt Γ source o := by simpa [Device.Action.reads] using hreads
    exact ensures_convert haction hresult ho hregular
  | load type pointer =>
    rw [haction] at hreads
    have hpointer : ReadAt Γ .ptr pointer := by simpa [Device.Action.reads] using hreads
    refine (ensures_register hpointer).bind fun v hv => ?_
    refine (ensures_moveType type).bind fun d hd => (ensures_define hresult).bind fun dst hdst => ?_
    rw [haction] at hdst
    exact ensures_strict (Instruction.takes_two
      (Operand.takes_register (Except.ok.inj (hdst.symm.trans hd)))
      (hv.takes_cls Target.registerClass_ptr))
  | store type o pointer =>
    rw [haction] at hreads
    obtain ⟨ho, hpointer⟩ : ReadAt Γ type o ∧ ReadAt Γ .ptr pointer := by
      simpa [Device.Action.reads] using hreads
    refine (ensures_register ho).bind fun v hv => (ensures_register hpointer).bind fun p hp =>
      (ensures_moveType type).bind fun d hd => ?_
    exact ensures_strict (Instruction.takes_two (hp.takes_cls Target.registerClass_ptr)
      (hv.takes_cls hd))
  | alloca type => exact ensures_alloca haction hresult
  | address bounds element base indexType index =>
    rw [haction] at hreads
    obtain ⟨hbase, hindex⟩ : ReadAt Γ .ptr base ∧ ReadAt Γ indexType index := by
      simpa [Device.Action.reads] using hreads
    exact ensures_address haction hresult hbase hindex hregular
  | call returnType callee args =>
    rw [haction] at hreads
    exact ensures_call haction hresult hreads hregular
  | ret returned =>
    rw [haction] at hreads hregular
    exact ensures_ret (fun a ha => hreads a (Option.mem_toList.2 ha)) hregular
  | jump target =>
    exact (ensures_blockLabel target).bind fun _ _ => ensures_registerless rfl
  | branch condition thenTarget elseTarget =>
    rw [haction] at hreads
    have hcondition : ReadAt Γ .i1 condition := by simpa [Device.Action.reads] using hreads
    exact ensures_branch _ _ hcondition

/-! ### Functions -/

/-- A parameter is read into a register of its class; a single bit comes as a number. -/
theorem ensures_parameter {p : Device.Parameter} {n : Nat}
    (h : ∀ name ∈ p.name, Γ name = p.type) : Ensures Γ scope (parameter p n) fun _ => True := by
  rw [parameter]
  cases hname : p.name with
  | none => exact .throw
  | some name =>
    have hname : Γ name = p.type := h name hname
    refine ensures_functionSymbol.bind fun _ _ => (ensures_freshFor _).bind fun r hr => ?_
    refine .ite (fun hbit => ?_) fun _ => ?_
    · refine (ensures_fresh .b32).bind fun raw hraw => ?_
      refine (ensures_strict ?_).bind fun _ _ => (ensures_strict ?_).bind fun _ _ =>
        ensures_assign (hname ▸ hr)
      · exact Instruction.takes_two (Operand.takes_register hraw) (Operand.takes_of_none rfl _)
      · rw [hbit] at hr
        exact Instruction.takes_three (Operand.takes_register (Except.ok.inj hr).symm)
          (Operand.takes_register hraw) (Operand.takes_of_none rfl _)
    · refine (ensures_moveType p.type).bind fun d hd => (ensures_strict ?_).bind fun _ _ =>
        ensures_assign (hname ▸ hr)
      exact Instruction.takes_two (Operand.takes_register (Except.ok.inj (hr.symm.trans hd)))
        (Operand.takes_of_none rfl _)

theorem ensures_body (htyped : scope.function.Typed Γ)
    (hregular : ∀ i ∈ scope.function.instructions, i.action.Regular scope.target.isWide) :
    Ensures Γ scope body fun _ => True := by
  refine Keeps.read.bind ?_
  rintro _ rfl
  refine (Keeps.forM fun p hp => ?_).bind fun _ _ => Keeps.forM fun b hb => ?_
  · exact ensures_parameter (htyped.parameters p.1 (List.fst_mem_of_mem_zipIdx hp))
  · refine (ensures_blockLabel _).bind fun _ _ => (ensures_line _ fun _ h => by cases h).bind
      fun _ _ => Keeps.forM fun i hi => ?_
    have hi : i ∈ scope.function.instructions := List.mem_flatMap.2 ⟨b, hb, hi⟩
    exact ensures_instruction (htyped.results i hi) (htyped.reads i hi) (hregular i hi)

end Emitter

theorem lines_of_emitFunction {f : Function} (h : emitFunction scope = .ok f) :
    ∃ p, (Emitter.body.run scope).run .start = .ok ((), p) ∧ f.lines = p.lines.reverse := by
  obtain ⟨⟨⟨⟩, p⟩, hp, h⟩ := Outcome.bind_eq_ok.1 h
  obtain rfl := Outcome.pure_eq_ok.1 h
  refine ⟨p, ?_, rfl⟩
  cases hbody : (Emitter.body.run scope).run .start with
  | error e =>
    rw [hbody] at hp
    cases hp
  | ok answer =>
    rw [hbody] at hp
    exact congrArg Except.ok (Except.ok.inj hp)

/-- The lines of a well-typed function are sound. -/
theorem emitFunction_sound {f : Function} (h : scope.function.WellTyped scope.target.isWide)
    (hrun : emitFunction scope = .ok f) {i : Instruction} (hi : .code i ∈ f.lines) :
    i.Sound scope.target := by
  obtain ⟨Γ, hΓ⟩ := h.typed
  obtain ⟨p, hp, hlines⟩ := lines_of_emitFunction hrun
  have hstart : Progress.start.Sound Γ scope.target :=
    ⟨fun _ he => absurd he List.not_mem_nil, fun _ hi => absurd hi List.not_mem_nil⟩
  have hsound := (Emitter.ensures_body hΓ h.regular _ hstart _ p hp).1
  rw [hlines] at hi
  exact hsound.lines i (List.mem_reverse.1 hi)

/-- The lines of the functions of a well-typed module are sound. -/
theorem emit_sound {t : Target} {m : Device.Module} (h : m.WellTyped t.isWide) {a : Assembly}
    (hrun : emit t m = .ok a) {f : Function} (hf : f ∈ a.functions) {i : Instruction}
    (hi : .code i ∈ f.lines) : i.Sound t := by
  obtain ⟨fs, hfs, heq⟩ := Outcome.bind_eq_ok.1 hrun
  obtain rfl := Outcome.pure_eq_ok.1 heq
  obtain ⟨g, hg, hemit⟩ := Outcome.exists_of_mem_right (Outcome.mapM_eq_ok.1 hfs) hf
  obtain ⟨hg, hbody⟩ := List.mem_filter.1 hg
  exact emitFunction_sound (h g hg (by simpa using hbody)) hemit hi

end Offload.Ptx
