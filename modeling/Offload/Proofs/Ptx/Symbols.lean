import Offload.Proofs.Device.WellFormed
import Offload.Proofs.Ptx.Classes

/-!
# Symbols of an assembly unit

The functions of a module are known in assembly by symbols, in which `_$_` stands for a dot. A name
may have `_$_` itself, so two functions can share a symbol; without a `$` in the names they do not
(`symbolName_injective`).

A function is declared before any is defined, but for the entrances, which nothing is meant to call.
Whatever a line of the unit calls is the symbol of a function that is called in the module
(`calls_of_emitFunction`). It is declared unless no function has this symbol but entrances
(`emit_symbols`).
-/

namespace Offload

namespace Device.Module

variable (m : Module)

/-- The functions that are known in assembly: all but the declarations of what belongs to the
    device. -/
def written : List Function :=
  m.functions.filter fun f => !(f.isDeclaration && "llvm.".toList.isPrefixOf f.name.toList)

/-- A kernel that is defined. -/
def IsEntrance (f : Function) : Prop := f.isDeclaration = false ∧ f.name ∈ m.kernels

end Device.Module

namespace Ptx

open Device (BinaryOp Conversion)

namespace Assembly

variable (a : Assembly)

/-- The symbol of every function that is declared or defined, the latter where it is defined. -/
def symbols : List String := a.externs.map (·.name) ++ a.functions.map (·.signature.name)

/-- The symbols that are declared as functions, and not as entrances, before any is defined. -/
def declared : List String :=
  ((a.externs ++ a.prototypes.map (·.2)).filter (!·.isEntry)).map (·.name)

end Assembly

/-! ## Names -/

/-- The letters of a symbol. -/
def spell (cs : List Char) : List Char :=
  cs.flatMap fun c => if c = '.' then ['_', '$', '_'] else [c]

theorem symbolName_eq (name : String) : symbolName name = String.ofList (spell name.toList) := rfl

theorem spell_dot (cs : List Char) : spell ('.' :: cs) = '_' :: '$' :: '_' :: spell cs := rfl

theorem spell_cons {c : Char} (hc : c ≠ '.') (cs : List Char) :
    spell (c :: cs) = c :: spell cs := by
  rw [spell, List.flatMap_cons, if_neg hc]
  rfl

/-- Only what has a dollar sign is spelled with one at its start. -/
theorem spell_ne_dollar {cs : List Char} (h : '$' ∉ cs) (rest : List Char) :
    spell cs ≠ '$' :: rest := by
  cases cs with
  | nil => nofun
  | cons c cs =>
    by_cases hdot : c = '.'
    · simp [hdot, spell_dot]
    · rw [spell_cons hdot]
      rintro heq
      exact h ((List.cons.inj heq).1 ▸ List.mem_cons_self)

theorem spell_injective {cs cs' : List Char} (h : '$' ∉ cs) (h' : '$' ∉ cs')
    (heq : spell cs = spell cs') : cs = cs' := by
  induction cs generalizing cs' with
  | nil =>
    cases cs' with
    | nil => rfl
    | cons c' cs' => by_cases hdot : c' = '.' <;> simp [hdot, spell] at heq
  | cons c cs ih =>
    cases cs' with
    | nil => by_cases hdot : c = '.' <;> simp [hdot, spell] at heq
    | cons c' cs' =>
      obtain ⟨-, hcs⟩ := not_or.1 (mt List.mem_cons.2 h)
      obtain ⟨-, hcs'⟩ := not_or.1 (mt List.mem_cons.2 h')
      by_cases hdot : c = '.' <;> by_cases hdot' : c' = '.'
      · subst hdot hdot'
        rw [spell_dot, spell_dot] at heq
        exact congrArg (List.cons _) (ih hcs hcs' (by simpa using heq))
      · -- what follows the underscore is a dollar sign on one side only
        rw [hdot, spell_dot, spell_cons hdot'] at heq
        exact absurd (List.cons.inj heq).2.symm (spell_ne_dollar hcs' _)
      · rw [hdot', spell_dot, spell_cons hdot] at heq
        exact absurd (List.cons.inj heq).2 (spell_ne_dollar hcs _)
      · rw [spell_cons hdot, spell_cons hdot'] at heq
        obtain ⟨rfl, htail⟩ := List.cons.inj heq
        exact congrArg (List.cons _) (ih hcs hcs' htail)

/-- Names without a dollar sign are told apart by their symbols. -/
theorem symbolName_injective {name name' : String} (h : '$' ∉ name.toList)
    (h' : '$' ∉ name'.toList) (heq : symbolName name = symbolName name') : name = name' := by
  rw [symbolName_eq, symbolName_eq] at heq
  exact String.toList_inj.1 (spell_injective h h' (String.ofList_injective heq))

/-! ## Calls -/

variable {scope : Scope} {Q : String → Prop} {α β : Type}

/-- Everything that is called in the lines so far has a property. -/
def Progress.Calls (Q : String → Prop) (p : Progress) : Prop :=
  ∀ result callee args, .code (.call result callee args) ∈ p.lines → Q callee

/-- A step of writing calls nothing but what has a property. -/
def Emitter.CallsOnly (scope : Scope) (Q : String → Prop) (x : Emitter α) : Prop :=
  Keeps (·.Calls Q) scope x fun _ => True

namespace Emitter

variable {type : Device.DataType} {o : Device.Operand} {i : Device.Instruction}

/-! ### Steps that do not look at the target -/

theorem callsOnly_line {l : Line}
    (h : ∀ result callee args, l = .code (.call result callee args) → Q callee) :
    CallsOnly scope Q (line l) := by
  refine Keeps.modify fun p hp result callee args hl => ?_
  obtain hl | hl := List.mem_cons.1 hl
  · exact h result callee args hl.symm
  · exact hp result callee args hl

theorem callsOnly_code {i : Instruction}
    (h : ∀ result callee args, i = .call result callee args → Q callee) :
    CallsOnly scope Q (code i) :=
  callsOnly_line fun result callee args heq => h result callee args (Line.code.inj heq)

theorem callsOnly_fresh {c : RegisterClass} : CallsOnly scope Q (fresh c) :=
  Keeps.get.bind fun _ _ => Keeps.bind (Keeps.modify fun _ hp => hp) fun _ _ => .pure trivial

theorem callsOnly_assign {name : String} {r : Register} : CallsOnly scope Q (assign name r) :=
  Keeps.modify fun _ hp => hp

theorem callsOnly_value : CallsOnly scope Q (value type o) := by
  cases o with
  | value name =>
    refine Keeps.get.bind fun p _ => ?_
    cases p.registers.lookup name with
    | none => exact .throw
    | some r => exact .pure trivial
  | _ => exact .pure trivial

theorem callsOnly_functionSymbol : CallsOnly scope Q functionSymbol :=
  Keeps.read.bind fun _ _ => .pure trivial

theorem callsOnly_blockLabel {label : String} : CallsOnly scope Q (blockLabel label) :=
  callsOnly_functionSymbol.bind fun _ _ => .pure trivial

theorem callsOnly_floatOpcode {op : BinaryOp} {contract : Bool} :
    CallsOnly scope Q (floatOpcode op contract) := by
  cases op <;> first | exact .pure trivial | exact .throw

theorem callsOnly_predicateOpcode {op : BinaryOp} : CallsOnly scope Q (predicateOpcode op) := by
  cases op <;> first | exact .pure trivial | exact .throw

theorem callsOnly_branch {condition : Device.Operand} {thenTarget elseTarget : String} :
    CallsOnly scope Q (branch condition thenTarget elseTarget) := by
  refine callsOnly_blockLabel.bind fun _ _ => callsOnly_blockLabel.bind fun _ _ => ?_
  split
  · exact callsOnly_code (by simp)
  · exact callsOnly_value.bind fun _ _ =>
      (callsOnly_code (by simp)).bind fun _ _ => callsOnly_code (by simp)

/-! ### Lines, registers and operands -/

variable [TripleLibrary]

theorem callsOnly_freshFor : CallsOnly scope Q (freshFor type) :=
  Keeps.read.bind fun _ _ => (Keeps.lift _).bind fun _ _ => callsOnly_fresh

theorem callsOnly_moveType : CallsOnly scope Q (moveType type) :=
  Keeps.read.bind fun _ _ => (Keeps.lift _).mono fun _ _ => trivial

theorem callsOnly_define : CallsOnly scope Q (define i) := by
  rw [define]
  cases i.result with
  | none => exact .throw
  | some name =>
    exact callsOnly_freshFor.bind fun _ _ => callsOnly_assign.bind fun _ _ => .pure trivial

theorem callsOnly_register : CallsOnly scope Q (register type o) := by
  refine callsOnly_value.bind fun v _ => .ite (fun _ => .pure trivial) fun _ => ?_
  refine Keeps.read.bind fun _ _ => (Keeps.lift _).bind fun c _ =>
    callsOnly_fresh.bind fun r _ => ?_
  refine .ite (fun _ => ?_) fun _ => callsOnly_moveType.bind fun _ _ => ?_
  · exact (callsOnly_code (by simp)).bind fun _ _ => .pure trivial
  · exact (callsOnly_code (by simp)).bind fun _ _ => .pure trivial

/-! ### Instructions -/

theorem callsOnly_intOpcode {op : BinaryOp} : CallsOnly scope Q (intOpcode op type) := by
  refine Keeps.read.bind fun _ _ => ?_
  cases op <;> first | exact .pure trivial | exact .throw

theorem callsOnly_binary {op : BinaryOp} {lhs rhs : Device.Operand} :
    CallsOnly scope Q (binary i op type lhs rhs) := by
  refine callsOnly_value.bind fun _ _ => callsOnly_value.bind fun _ _ =>
    callsOnly_define.bind fun _ _ => ?_
  refine .ite (fun _ => ?_) fun _ => .ite (fun _ => ?_) fun _ => ?_
  · exact callsOnly_moveType.bind fun _ _ =>
      callsOnly_floatOpcode.bind fun _ _ => callsOnly_code (by simp)
  · exact callsOnly_predicateOpcode.bind fun _ _ => callsOnly_code (by simp)
  · exact callsOnly_intOpcode.bind fun _ _ => callsOnly_code (by simp)

theorem callsOnly_convert {op : Conversion} {source target : Device.DataType} :
    CallsOnly scope Q (convert i op source o target) := by
  refine callsOnly_register.bind fun _ _ => callsOnly_define.bind fun _ _ =>
    Keeps.read.bind fun _ _ => ?_
  dsimp only
  split
  all_goals first
    | exact callsOnly_code (by simp)
    | exact callsOnly_moveType.bind fun _ _ => callsOnly_code (by simp)
    | exact callsOnly_freshFor.bind fun _ _ =>
        (callsOnly_code (by simp)).bind fun _ _ => callsOnly_code (by simp)
    | exact .throw

theorem callsOnly_alloca : CallsOnly scope Q (alloca i type) := by
  refine Keeps.read.bind fun _ _ => callsOnly_functionSymbol.bind fun _ _ => ?_
  refine Keeps.get.bind fun _ _ => Keeps.bind (Keeps.modify fun _ hp => hp) fun _ _ => ?_
  refine callsOnly_moveType.bind fun _ _ => callsOnly_define.bind fun _ _ => ?_
  exact (callsOnly_code (by simp)).bind fun _ _ => callsOnly_code (by simp)

theorem callsOnly_address {element indexType : Device.DataType} {base index : Device.Operand} :
    CallsOnly scope Q (address i element base indexType index) := by
  refine Keeps.read.bind fun _ _ => callsOnly_register.bind fun _ _ =>
    callsOnly_define.bind fun _ _ => ?_
  split
  · exact callsOnly_code (by simp)
  · exact callsOnly_value.bind fun _ _ =>
      .ite (fun _ => callsOnly_code (by simp)) fun _ => callsOnly_code (by simp)

theorem callsOnly_intrinsic {callee : String} : CallsOnly scope Q (intrinsic i callee) := by
  refine .ite (fun _ => callsOnly_code (by simp)) fun _ => ?_
  cases after? "llvm.nvvm.read.ptx.sreg." callee with
  | none => exact .throw
  | some name => exact callsOnly_define.bind fun _ _ => callsOnly_code (by simp)

theorem callsOnly_arguments {args : List (Device.DataType × Operand)} :
    CallsOnly scope Q (arguments args) := by
  refine Keeps.read.bind fun _ _ => ?_
  refine (Keeps.mapM (R := fun _ => True) fun a _ => ?_).mono fun _ _ => trivial
  exact (callsOnly_code (by simp)).bind fun _ _ =>
    (callsOnly_code (by simp)).bind fun _ _ => .pure trivial

/-- A call is one of the symbol of a function of the module, unless it is of the device. -/
theorem callsOnly_call {returnType : Device.DataType} {callee : String}
    {args : List (Device.DataType × Device.Operand)}
    (h : ¬"llvm.".toList.isPrefixOf callee.toList → (scope.module.function? callee).isSome →
      Q (symbolName callee)) : CallsOnly scope Q (call i returnType callee args) := by
  refine .ite (fun _ => callsOnly_intrinsic) fun hdevice => Keeps.read.bind ?_
  rintro _ rfl
  refine .ite (fun _ => Keeps.throw_bind) fun hunknown => ?_
  have hcall {result : Option String} {names : List String} :
      CallsOnly scope Q (code (.call result (symbolName callee) names)) := by
    refine callsOnly_code fun _ _ _ heq => ?_
    obtain ⟨-, rfl, -⟩ := Instruction.call.inj heq
    exact h hdevice (by simpa [Option.isSome_iff_ne_none] using hunknown)
  refine (Keeps.mapM (R := fun _ => True) fun a _ => ?_).bind fun _ _ => ?_
  · exact callsOnly_register.bind fun _ _ => .pure trivial
  refine (callsOnly_line (by simp)).bind fun _ _ => callsOnly_arguments.bind fun _ _ => ?_
  refine .ite (fun _ => hcall.bind fun _ _ => callsOnly_line (by simp)) fun _ => ?_
  refine Keeps.read.bind fun _ _ => (callsOnly_code (by simp)).bind fun _ _ =>
    hcall.bind fun _ _ => ?_
  exact callsOnly_define.bind fun _ _ => callsOnly_moveType.bind fun _ _ =>
    (callsOnly_code (by simp)).bind fun _ _ => callsOnly_line (by simp)

theorem callsOnly_ret {returned : Option (Device.DataType × Device.Operand)} :
    CallsOnly scope Q (ret returned) := by
  cases returned with
  | none => exact callsOnly_code (by simp)
  | some a =>
    refine Keeps.read.bind fun _ _ => .ite (fun _ => Keeps.throw_bind) fun _ => ?_
    exact callsOnly_register.bind fun _ _ => Keeps.read.bind fun _ _ =>
      (callsOnly_code (by simp)).bind fun _ _ => callsOnly_code (by simp)

theorem callsOnly_instruction
    (h : ∀ callee ∈ i.action.callee?, ¬"llvm.".toList.isPrefixOf callee.toList →
      (scope.module.function? callee).isSome → Q (symbolName callee)) :
    CallsOnly scope Q (instruction i) := by
  rw [instruction]
  cases haction : i.action with
  | binary op type lhs rhs => exact callsOnly_binary
  | negate type o =>
    exact callsOnly_register.bind fun _ _ => callsOnly_moveType.bind fun _ _ =>
      callsOnly_define.bind fun _ _ => callsOnly_code (by simp)
  | compareInt comparison type lhs rhs =>
    exact callsOnly_register.bind fun _ _ => callsOnly_value.bind fun _ _ =>
      Keeps.read.bind fun _ _ => callsOnly_define.bind fun _ _ => callsOnly_code (by simp)
  | compareFloat comparison type lhs rhs =>
    exact callsOnly_register.bind fun _ _ => callsOnly_value.bind fun _ _ =>
      callsOnly_moveType.bind fun _ _ => callsOnly_define.bind fun _ _ => callsOnly_code (by simp)
  | convert op source o target => exact callsOnly_convert
  | load type pointer =>
    exact callsOnly_register.bind fun _ _ => callsOnly_moveType.bind fun _ _ =>
      callsOnly_define.bind fun _ _ => callsOnly_code (by simp)
  | store type o pointer =>
    exact callsOnly_register.bind fun _ _ => callsOnly_register.bind fun _ _ =>
      callsOnly_moveType.bind fun _ _ => callsOnly_code (by simp)
  | alloca type => exact callsOnly_alloca
  | address bounds element base indexType index => exact callsOnly_address
  | call returnType callee args =>
    exact callsOnly_call (h callee (by rw [haction]; rfl))
  | ret returned => exact callsOnly_ret
  | jump target => exact callsOnly_blockLabel.bind fun _ _ => callsOnly_code (by simp)
  | branch condition thenTarget elseTarget => exact callsOnly_branch

/-! ### Functions -/

theorem callsOnly_parameter {p : Device.Parameter} {n : Nat} :
    CallsOnly scope Q (parameter p n) := by
  rw [parameter]
  cases p.name with
  | none => exact .throw
  | some name =>
    refine callsOnly_functionSymbol.bind fun _ _ => callsOnly_freshFor.bind fun _ _ => ?_
    refine .ite (fun _ => callsOnly_fresh.bind fun _ _ => ?_) fun _ =>
      callsOnly_moveType.bind fun _ _ => ?_
    · exact (callsOnly_code (by simp)).bind fun _ _ =>
        (callsOnly_code (by simp)).bind fun _ _ => callsOnly_assign
    · exact (callsOnly_code (by simp)).bind fun _ _ => callsOnly_assign

theorem callsOnly_body
    (h : ∀ i ∈ scope.function.instructions, ∀ callee ∈ i.action.callee?,
      ¬"llvm.".toList.isPrefixOf callee.toList → (scope.module.function? callee).isSome →
        Q (symbolName callee)) : CallsOnly scope Q body := by
  refine Keeps.read.bind ?_
  rintro _ rfl
  refine (Keeps.forM fun _ _ => callsOnly_parameter).bind fun _ _ => Keeps.forM fun b hb => ?_
  refine callsOnly_blockLabel.bind fun _ _ => (callsOnly_line (by simp)).bind fun _ _ =>
    Keeps.forM fun i hi => ?_
  exact callsOnly_instruction (h i (List.mem_flatMap.2 ⟨b, hb, hi⟩))

end Emitter

/-- Whatever is called in the lines of a function is the symbol of a function of the module, which
    is called there. -/
theorem calls_of_emitFunction [TripleLibrary] {f : Function} (h : emitFunction scope = .ok f)
    {result : Option String} {callee : String} {args : List String}
    (hl : .code (.call result callee args) ∈ f.lines) :
    ∃ i ∈ scope.function.instructions, ∃ name ∈ i.action.callee?,
      ¬"llvm.".toList.isPrefixOf name.toList ∧ (scope.module.function? name).isSome ∧
        symbolName name = callee := by
  obtain ⟨p, hp, hlines⟩ := lines_of_emitFunction h
  have hstart : Progress.start.Calls fun callee => ∃ i ∈ scope.function.instructions,
      ∃ name ∈ i.action.callee?, ¬"llvm.".toList.isPrefixOf name.toList ∧
        (scope.module.function? name).isSome ∧ symbolName name = callee :=
    fun _ _ _ hl => absurd hl List.not_mem_nil
  have hcalls := (Emitter.callsOnly_body
    (fun i hi name hname hdevice hknown => ⟨i, hi, name, hname, hdevice, hknown, rfl⟩) _ hstart
    _ p hp).1
  exact hcalls result callee args (List.mem_reverse.1 (hlines ▸ hl))

/-! ## Units -/

section

variable [TripleLibrary] {t : Target} {m : Device.Module} {a : Assembly}

/-- What a unit consists of. -/
theorem emit_eq_ok (h : emit t m = .ok a) :
    a.externs = (m.functions.filter fun f =>
        f.isDeclaration && !"llvm.".toList.isPrefixOf f.name.toList).map (t.signature false) ∧
      a.prototypes.map (·.2) = (m.functions.filter fun f =>
        !f.isDeclaration && !m.kernels.contains f.name).map (t.signature false) ∧
      List.Forall₂ (fun f g => emitFunction ⟨t, m, f, m.kernels.contains f.name⟩ = .ok g)
        (m.functions.filter (!·.isDeclaration)) a.functions := by
  obtain ⟨fs, hfs, heq⟩ := Outcome.bind_eq_ok.1 h
  obtain rfl := Outcome.pure_eq_ok.1 heq
  refine ⟨rfl, ?_, Outcome.mapM_eq_ok.1 hfs⟩
  rw [List.map_map, List.filter_filter]
  refine congrArg₂ List.map rfl (List.filter_congr fun f _ => ?_)
  rw [Bool.and_comm]

theorem name_of_emitFunction {f : Function} (h : emitFunction scope = .ok f) :
    f.signature.name = symbolName scope.function.name := by
  obtain ⟨answer, -, h⟩ := Outcome.bind_eq_ok.1 h
  obtain rfl := Outcome.pure_eq_ok.1 h
  rfl

/-- Every function that is written has its symbol in the unit, and no other function has one. -/
theorem symbols_perm (h : emit t m = .ok a) :
    a.symbols.Perm (m.written.map (symbolName ·.name)) := by
  obtain ⟨hexterns, -, hfunctions⟩ := emit_eq_ok h
  have hnames : a.functions.map (·.signature.name) =
      (m.functions.filter (!·.isDeclaration)).map (symbolName ·.name) := by
    have hpairs : List.Forall₂ (· = ·) (a.functions.map (·.signature.name))
        ((m.functions.filter (!·.isDeclaration)).map (symbolName ·.name)) := by
      rw [List.forall₂_map_left_iff, List.forall₂_map_right_iff]
      exact hfunctions.flip.imp fun _ _ hf => name_of_emitFunction hf
    rwa [List.forall₂_eq_eq_eq] at hpairs
  have hdeclared : m.written.filter (·.isDeclaration) = m.functions.filter fun f =>
      f.isDeclaration && !"llvm.".toList.isPrefixOf f.name.toList := by
    rw [Device.Module.written, List.filter_filter]
    refine List.filter_congr fun f _ => ?_
    cases f.isDeclaration <;> simp
  have hdefined : m.written.filter (!·.isDeclaration) = m.functions.filter (!·.isDeclaration) := by
    rw [Device.Module.written, List.filter_filter]
    refine List.filter_congr fun f _ => ?_
    cases f.isDeclaration <;> simp
  rw [Assembly.symbols, hexterns, hnames, ← hdeclared, ← hdefined, List.map_map]
  exact (List.map_append.symm ▸ (List.filter_append_perm _ m.written).map _ :)

/-- What is declared as a function is what is written and no entrance. -/
theorem mem_declared_iff (h : emit t m = .ok a) {symbol : String} :
    symbol ∈ a.declared ↔ ∃ f ∈ m.written, symbolName f.name = symbol ∧ ¬m.IsEntrance f := by
  obtain ⟨hexterns, hprototypes, -⟩ := emit_eq_ok h
  rw [Assembly.declared, hexterns, hprototypes, ← List.map_append, List.filter_map, List.map_map]
  rw [List.mem_map]
  refine exists_congr fun f => ?_
  cases hbody : f.isDeclaration <;>
    simp [Device.Module.written, Device.Module.IsEntrance, Target.signature, hbody, and_assoc,
      and_left_comm, and_comm]

/-- What is called in a unit, what is declared before, and when the symbols are distinct. -/
theorem emit_symbols (hdefects : m.defects = []) (h : emit t m = .ok a) :
    a.symbols.Perm (m.written.map (symbolName ·.name)) ∧
      (a.symbols.Nodup ↔ ∀ f ∈ m.written, ∀ g ∈ m.written,
        symbolName f.name = symbolName g.name → f = g) ∧
      ((∀ f ∈ m.written, '$' ∉ f.name.toList) → a.symbols.Nodup) ∧
      ∀ f ∈ a.functions, ∀ result callee args, .code (.call result callee args) ∈ f.lines →
        (∃ caller ∈ m.functions, symbolName caller.name = f.signature.name ∧
          ∃ i ∈ caller.instructions, ∃ g ∈ m.written, g.name ∈ i.action.callee? ∧
            symbolName g.name = callee) ∧
        (callee ∈ a.declared ↔
          ∃ g ∈ m.written, symbolName g.name = callee ∧ ¬m.IsEntrance g) := by
  have hnames := (Device.Module.defects_eq_nil_iff.1 hdefects).names
  have hperm := symbols_perm h
  have hnodup : a.symbols.Nodup ↔ ∀ f ∈ m.written, ∀ g ∈ m.written,
      symbolName f.name = symbolName g.name → f = g := by
    rw [hperm.nodup_iff, List.nodup_map_iff_inj_on]
    exact (hnames.of_map _).filter _
  refine ⟨hperm, hnodup, fun hplain => hnodup.2 fun f hf g hg heq => ?_,
    fun f hf result callee args hl => ⟨?_, mem_declared_iff h⟩⟩
  · have hname := symbolName_injective (hplain f hf) (hplain g hg) heq
    exact List.inj_on_of_nodup_map hnames (List.mem_of_mem_filter hf) (List.mem_of_mem_filter hg)
      hname
  · obtain ⟨caller, hcaller, hemit⟩ := Outcome.exists_of_mem_right (emit_eq_ok h).2.2 hf
    obtain ⟨i, hi, name, hname, hdevice, hknown, hsymbol⟩ := calls_of_emitFunction hemit hl
    obtain ⟨g, hg⟩ := Option.isSome_iff_exists.1 hknown
    obtain ⟨hmem, rfl⟩ := (Device.Module.function?_eq_some hnames).1 hg
    refine ⟨caller, List.mem_of_mem_filter hcaller, (name_of_emitFunction hemit).symm, i, hi, g, ?_,
      hname, hsymbol⟩
    exact List.mem_filter.2 ⟨hmem, by
      rw [eq_false_of_ne_true hdevice, Bool.and_false]
      rfl⟩

end

/-- A function without results that does one thing before it returns, if anything. -/
def plainFunction (name : String) (actions : List Device.Action) : Device.Function where
  name
  linkage := .external
  returnType := .void
  parameters := []
  blocks := [⟨"entry", (actions ++ [Device.Action.ret none]).map ({ result := none, action := · })⟩]

/-- Two functions whose names differ by how a dot is written, and a kernel that is called. -/
def clashingCode : Device.Module where
  name := "m"
  functions := [plainFunction "a.b" [], plainFunction "a_$_b" [], plainFunction "k" [],
    plainFunction "f" [.call .void "k" []]]
  lists := [⟨Device.annotations, [⟨0⟩]⟩]
  nodes := .ofList [(⟨0⟩, ⟨false, Device.Module.kernelNode "k"⟩)]

local instance : TripleLibrary := cudaLibrary

set_option maxRecDepth 100000 in
/-- The functions share a symbol, and the kernel is called without being declared. -/
theorem emit_symbols_clashing : ∃ a, clashingCode.defects = [] ∧
    emit wideTarget clashingCode = .ok a ∧ ¬a.symbols.Nodup ∧
      ∃ f ∈ a.functions, ∃ result callee args, .code (.call result callee args) ∈ f.lines ∧
        callee ∉ a.declared := by
  have hdefects : clashingCode.defects = [] := by decide +kernel
  have hemits : (emit wideTarget clashingCode).toOption.any fun a => a.functions.any fun f =>
      decide (.code (.call none "k" []) ∈ f.lines) := by decide +kernel
  rw [Option.any_eq_true] at hemits
  obtain ⟨a, ha, hcall⟩ := hemits
  have ha := Outcome.eq_ok_of_toOption ha
  obtain ⟨f, hf, hcall⟩ := List.any_eq_true.1 hcall
  have hcall := of_decide_eq_true hcall
  obtain ⟨-, hnodup, -, hcalls⟩ := emit_symbols hdefects ha
  refine ⟨a, hdefects, ha, fun h => ?_, f, hf, none, "k", [], hcall, fun h => ?_⟩
  · have htwins := hnodup.1 h (plainFunction "a.b" []) (by decide +kernel)
      (plainFunction "a_$_b" []) (by decide +kernel) (by decide +kernel)
    exact absurd htwins (by decide)
  · -- nothing but the kernel has its symbol
    obtain ⟨g, hg, hsymbol, hentrance⟩ := (hcalls f hf none "k" [] hcall).2.1 h
    have hall : ∀ g ∈ clashingCode.written, symbolName g.name = "k" →
        g.isDeclaration = false ∧ g.name ∈ clashingCode.kernels := by decide +kernel
    exact hentrance (hall g hg hsymbol)

end Ptx

end Offload
