import Offload.Compile
import Offload.Number.Digits

/-!
# The command line

There are two commands, each for one file:

```text
omp-opt INPUT [--max-iterations N]
serialize INPUT --ptxas-path PATH --libdevice-path PATH [--omp-opt] [--triple TEXT]
  [--chip TEXT] [--features TEXT] [--opt-level N] [--ptxas-opt-level N]
  [--output-intermediate] [--temp-dir PATH]
```

The value of an option follows it, or is attached with an equals sign. A value
that follows cannot begin with a hyphen, unless it is a hyphen alone, or a
negative number where one makes sense. After `--` there are no more options.

The arguments are taken from left to right, and the first that cannot be taken,
or asks for help, ends this.
-/

namespace Offload.CommandLine

/-- What the user wants. -/
inductive Command
  | optimize (input : String) (maxPasses : Nat)
  | serialize (input : String) (optimizes : Bool) (options : Cubin.Options)
  deriving DecidableEq, Repr

/-- Why there is no command. -/
inductive Rejection
  /-- The user asks for help. -/
  | help
  /-- There are no arguments. -/
  | nothing
  | usage
  deriving DecidableEq, Repr

/-! ## Values -/

/-- A path. -/
def path? (text : String) : Option String := if text.isEmpty then none else some text

/-- A number of passes. -/
def passes? (text : String) : Option Nat := readNatural? UInt64.size text.toList

/-- An integer within limits, which are both included. -/
def integer? (least greatest : Int) (text : String) : Option Int :=
  (readInteger? 0x8000000000000000 text.toList).filter fun n => least ≤ n ∧ n ≤ greatest

/-- An optimization level for device code. -/
def level? : String → Option Int := integer? (-0x80000000) 0x7FFFFFFF

/-- An optimization level for the assembler. -/
def assemblerLevel? (text : String) : Option Nat := (integer? 0 0xFFFFFFFF text).map Int.toNat

/-! ## Options -/

/-- What may stand after an option. -/
inductive ValueKind
  | text
  | path
  | passes
  | level
  | assemblerLevel
  deriving DecidableEq, Repr

/-- Whether a text is a value of a kind. -/
def ValueKind.accepts : ValueKind → String → Bool
  | text, _ => true
  | path, v => (path? v).isSome
  | passes, v => (passes? v).isSome
  | level, v => (level? v).isSome
  | assemblerLevel, v => (assemblerLevel? v).isSome

/-- An option; a flag takes no value. -/
structure Spec where
  name : String
  value : Option ValueKind
  deriving DecidableEq, Repr

/-- The options of `omp-opt`. -/
def optimizeSpecs : List Spec := [⟨"max-iterations", some .passes⟩]

/-- The options of `serialize`. -/
def serializeSpecs : List Spec :=
  [⟨"omp-opt", none⟩, ⟨"triple", some .text⟩, ⟨"chip", some .text⟩, ⟨"features", some .text⟩,
    ⟨"opt-level", some .level⟩, ⟨"ptxas-opt-level", some .assemblerLevel⟩,
    ⟨"ptxas-path", some .path⟩, ⟨"libdevice-path", some .path⟩, ⟨"output-intermediate", none⟩,
    ⟨"temp-dir", some .path⟩]

/-- Whether an argument can be the value of the option before it. -/
def canFollow (kind : ValueKind) (arg : String) : Bool :=
  match arg.toList with
  | '-' :: rest => rest.isEmpty || (kind = .level && rest.all Char.isDigit)
  | _ => true

/-! ## Arguments -/

/-- The arguments that have been taken. -/
structure Given where
  options : List (String × String)
  input : Option String
  deriving DecidableEq, Repr

namespace Given

variable (g : Given)

/-- The value of an option. -/
def value? (name : String) : Option String := g.options.lookup name

def hasFlag (name : String) : Bool := (g.value? name).isSome

/-- Take an option with its value; no option can be taken twice. -/
def take (spec : Spec) (value : String) : Except Rejection Given :=
  if g.hasFlag spec.name || !spec.value.all (·.accepts value) then .error .usage
  else .ok { g with options := (spec.name, value) :: g.options }

/-- Take an argument that belongs to no option. -/
def takeInput (arg : String) : Except Rejection Given :=
  if g.input.isSome then .error .usage
  else
    match path? arg with
    | none => .error .usage
    | some path => .ok { g with input := some path }

end Given

/-- A long option and the value attached to it. -/
def splitOption (s : List Char) : String × Option String :=
  match s.span (· ≠ '=') with
  | (name, []) => (String.ofList name, none)
  | (name, _ :: value) => (String.ofList name, some (String.ofList value))

/-- Take arguments, in which an option may wait for its value. -/
def takeArgs (specs : List Spec) : (waiting : Option (Spec × ValueKind)) → List String → Given →
    Except Rejection Given
  | none, [], g => .ok g
  | some _, [], _ => .error .usage
  | some (spec, kind), arg :: args, g =>
    if canFollow kind arg then do takeArgs specs none args (← g.take spec arg)
    else .error .usage
  | none, arg :: args, g =>
    match arg.toList with
    | ['-', '-'] => args.foldlM Given.takeInput g
    | '-' :: '-' :: option =>
      match splitOption option with
      | ("help", none) => .error .help
      | (name, attached) =>
        match specs.find? (·.name = name) with
        | none => .error .usage
        | some spec =>
          match spec.value, attached with
          | none, none => do takeArgs specs none args (← g.take spec "")
          | none, some _ => .error .usage
          | some kind, none => takeArgs specs (some (spec, kind)) args g
          | some _, some value => do takeArgs specs none args (← g.take spec value)
    | '-' :: 'h' :: _ => .error .help
    | '-' :: _ :: _ => .error .usage
    | _ => do takeArgs specs none args (← g.takeInput arg)

/-- Take all arguments of a command. -/
def given (specs : List Spec) (args : List String) : Except Rejection Given :=
  takeArgs specs none args ⟨[], none⟩

/-- Something that must have been given. -/
def required {α : Type} : Option α → Except Rejection α
  | some a => .ok a
  | none => .error .usage

/-! ## Commands -/

/-- The command `omp-opt`. -/
def optimizeCommand (args : List String) : Except Rejection Command := do
  let g ← given optimizeSpecs args
  return .optimize (← required g.input) (((g.value? "max-iterations").bind passes?).getD 47)

/-- The command `serialize`. -/
def serializeCommand (args : List String) : Except Rejection Command := do
  let g ← given serializeSpecs args
  let usual : Cubin.Options := {}
  let options : Cubin.Options := {
    triple := (g.value? "triple").getD usual.triple
    chip := (g.value? "chip").getD usual.chip
    features := (g.value? "features").getD usual.features
    level := ((g.value? "opt-level").bind level?).getD usual.level
    assemblerLevel :=
      ((g.value? "ptxas-opt-level").bind assemblerLevel?).getD usual.assemblerLevel
    assemblerPath := ← required (g.value? "ptxas-path")
    libraryPath := ← required (g.value? "libdevice-path")
    showIntermediate := g.hasFlag "output-intermediate"
    scratchDirectory := g.value? "temp-dir" }
  return .serialize (← required g.input) (g.hasFlag "omp-opt") options

/-- Whether the arguments after the command `help` name a command. -/
def namesCommand (args : List String) : Bool :=
  args.isEmpty || args = ["omp-opt"] || args = ["serialize"] || args = ["help"]

/-- The command that arguments spell. -/
def parse (args : List String) : Except Rejection Command :=
  match args with
  | [] | ["--"] => .error .nothing
  | "omp-opt" :: args => optimizeCommand args
  | "serialize" :: args => serializeCommand args
  | "help" :: args => .error (if namesCommand args then .help else .usage)
  | arg :: _ =>
    if arg = "--help" || "-h".toList.isPrefixOf arg.toList then .error .help else .error .usage

/-! ## The program -/

/-- The triples of 64 bits that the program knows. -/
instance : Ptx.TripleLibrary := .wide
  ["nvptx64-nvidia-cuda", "nvptx64", "nvptx64-nvidia", "nvptx64-cuda", "nvptx64-unknown-cuda",
    "nvptx64-nvidia-cuda-elf", "nvptx64-nvidia-linux-gnu", "x86_64", "x86_64-unknown-linux-gnu",
    "aarch64-unknown-linux-gnu", "riscv64gc-unknown-linux-gnu"]

/-- What the program leaves behind. -/
structure Exit where
  code : Nat
  stdout : String
  stderr : String
  deriving DecidableEq, Repr

/-- A short account of the commands. -/
def helpText : String :=
  "Usage: offload omp-opt INPUT [--max-iterations N]\n"
    ++ "       offload serialize INPUT --ptxas-path PATH --libdevice-path PATH [OPTIONS]\n"

namespace Command

def input : Command → String
  | optimize input _ | serialize input _ _ => input

/-- The stages that a command runs. -/
def stages : Command → Stages
  | optimize _ maxPasses => { optimize := some maxPasses, serialize := none }
  | serialize _ optimizes options =>
    { optimize := if optimizes then some 47 else none, serialize := some options }

/-- The files that a command reads. -/
def paths : Command → List String
  | optimize input _ => [input]
  | serialize input _ options => [input, options.libraryPath]

/-- Do what the user wants. -/
def run (host : Cubin.Host) (c : Command) : Except Fault Exit := do
  match host.read c.input with
  | .error e => return ⟨1, "", s!"Error reading file: {e.message}\n"⟩
  | .ok text =>
    match ← (compile host c.stages c.input text).run "" with
    | (.error e, printed) => return ⟨1, printed, s!"{c.input}: {e.message}\n"⟩
    | (.ok compiled, printed) =>
      return ⟨0, printed ++ (← compiled.context.print compiled.root), ""⟩

end Command

/-- Run the program on its arguments. -/
def run (host : Cubin.Host) (args : List String) : Except Fault Exit :=
  match parse args with
  | .ok c => c.run host
  | .error .help => .ok ⟨0, helpText, ""⟩
  | .error _ => .ok ⟨2, "", helpText⟩

end Offload.CommandLine
