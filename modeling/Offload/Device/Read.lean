import Offload.Device.Grammar

/-!
# Reading device code

A module is read line by line. A comment runs from a semicolon outside quotes to
the end of its line; white space around a line, and empty lines, mean nothing.
Inside a function every line is an instruction, a label or the closing brace;
instructions before the first label belong to a block `entry`. Outside, the
start of a line says what it is.

Two kinds of lines are skipped: `source_filename` and `attributes`.
-/

namespace Offload.Device

/-- What a line can be. -/
inductive LineKind
  | instruction
  | header
  | target
  | node
  | list
  deriving DecidableEq, Repr

/-- The words for a kind of line. -/
def LineKind.words : LineKind → String
  | instruction => "instruction"
  | header => "function header"
  | target => "target line"
  | node => "metadata node"
  | list => "named metadata"

/-- Why a text is not a module. -/
inductive ReadFailure
  /-- A line departs from the grammar. -/
  | malformed (kind : LineKind) (line : String)
  /-- Something follows on a line. -/
  | surplus (rest : String) (kind : LineKind)
  /-- Two nodes have the same number. -/
  | repeated (node : NodeRef)
  /-- A line does not start like any kind of line. -/
  | unexpected (line : String)
  /-- The last function has no closing brace. -/
  | unclosed (function : String)
  deriving DecidableEq, Repr

/-- The words for a failure. -/
def ReadFailure.message : ReadFailure → String
  | malformed kind line => s!"malformed {kind.words}: `{line}`"
  | surplus rest kind => s!"unexpected `{rest}` after {kind.words}"
  | repeated node => s!"metadata {node} defined twice"
  | unexpected line => s!"unexpected `{line}`"
  | unclosed function => s!"function @{function} is not closed"

/-- Why a text is not a module, and at which line; the first is number one. -/
structure ReadError where
  failure : ReadFailure
  line : Nat
  deriving DecidableEq, Repr

namespace ReadError

def message (e : ReadError) : String := e.failure.message

def text (e : ReadError) : String := s!"line {e.line}: {e.message}"

end ReadError

/-- A line without its comment. -/
def stripComment (line : List Char) : List Char := go line false
where
  go : List Char → Bool → List Char
    | [], _ => []
    | c :: cs, quoted =>
      if c = ';' && !quoted then []
      else c :: go cs (if c = '"' then !quoted else quoted)

/-- Read all of a line. -/
def readLine {α : Type} (kind : LineKind) (p : Text.Reader α) (line : List Char) :
    Except ReadFailure α :=
  match p line with
  | .stuck _ => .error (.malformed kind (String.ofList line))
  | .done a rest =>
    let rest := Text.trim rest
    if rest.isEmpty then .ok a else .error (.surplus (String.ofList rest) kind)

namespace Function

/-- Begin a block at the end of a function. -/
def pushBlock (f : Function) (label : String) : Function :=
  { f with blocks := f.blocks ++ [⟨label, []⟩] }

/-- Put an instruction at the end of the last block. -/
def pushInstruction (f : Function) (i : Instruction) : Function :=
  { f with blocks := go f.blocks }
where
  go : List Block → List Block
    | [] => [⟨"entry", [i]⟩]
    | [b] => [{ b with instructions := b.instructions ++ [i] }]
    | b :: bs => b :: go bs

end Function

/-- What has been read of a module: the part that is complete, and the function
    whose closing brace is still to come. -/
structure Reading where
  module : Module
  current : Option Function

namespace Reading

/-- The label on a line. -/
def label? (line : List Char) : Option String :=
  match line.getLast? with
  | some ':' =>
    let label := line.dropLast
    if !label.isEmpty && label.all Grammar.isNameChar then some (String.ofList label) else none
  | _ => none

/-- Read a line inside a function. -/
def bodyLine (m : Module) (f : Function) (line : List Char) : Except ReadFailure Reading := do
  if line = ['}'] then return ⟨{ m with functions := m.functions ++ [f] }, none⟩
  else
    match label? line with
    | some label => return ⟨m, some (f.pushBlock label)⟩
    | none =>
      return ⟨m, some (f.pushInstruction (← readLine .instruction Grammar.instruction line))⟩

/-- Read a line outside functions. -/
def topLine (m : Module) (line : List Char) : Except ReadFailure Reading := do
  let starts (word : String) : Bool := word.toList.isPrefixOf line
  if starts "define" then return ⟨m, some (← readLine .header Grammar.header line)⟩
  else if starts "declare" then
    let f ← readLine .header Grammar.header line
    return ⟨{ m with functions := m.functions ++ [f] }, none⟩
  else if starts "target" then
    match ← readLine .target Grammar.targetLine line with
    | .triple text => return ⟨{ m with triple := some text }, none⟩
    | .dataLayout text => return ⟨{ m with dataLayout := some text }, none⟩
  else if starts "source_filename" || starts "attributes" then return ⟨m, none⟩
  else
    match line with
    | '!' :: c :: _ =>
      if c.isDigit then
        let (r, d) ← readLine .node Grammar.nodeDef line
        if m.nodes.contains r then throw (.repeated r)
        return ⟨{ m with nodes := m.nodes.set r d }, none⟩
      else
        let l ← readLine .list Grammar.nodeList line
        return ⟨{ m with lists := m.lists ++ [l] }, none⟩
    | ['!'] =>
      let l ← readLine .list Grammar.nodeList line
      return ⟨{ m with lists := m.lists ++ [l] }, none⟩
    | _ => throw (.unexpected (String.ofList line))

/-- Read a line. -/
def line (s : Reading) (line : List Char) : Except ReadFailure Reading :=
  let line := Text.trim (stripComment line)
  if line.isEmpty then .ok s
  else
    match s.current with
    | some f => bodyLine s.module f line
    | none => topLine s.module line

/-- Read lines, of which the first has the number `n`. -/
def lines (s : Reading) (n : Nat) : List (List Char) → Except ReadError Reading
  | [] => .ok s
  | l :: ls =>
    match s.line l with
    | .error failure => .error ⟨failure, n⟩
    | .ok s => s.lines (n + 1) ls

end Reading

/-- The module that a text spells, under a name. -/
def Module.read (name text : String) : Except ReadError Module := do
  let lines := Text.lines text.toList
  let s ← (Reading.mk { name } none).lines 1 lines
  match s.current with
  | some f => throw ⟨.unclosed f.name, lines.length⟩
  | none => return s.module

end Offload.Device
