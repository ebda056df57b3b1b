import Offload.CommandLine
import Offload.Compile
import Offload.Cubin.Host
import Offload.Cubin.Options
import Offload.Cubin.Serialize
import Offload.Device.Defect
import Offload.Device.Fold
import Offload.Device.Grammar
import Offload.Device.Instruction
import Offload.Device.Library
import Offload.Device.Link
import Offload.Device.Lowering
import Offload.Device.Metadata
import Offload.Device.Module
import Offload.Device.Optimize
import Offload.Device.Printer
import Offload.Device.Read
import Offload.Device.Sweep
import Offload.Dialect.Access
import Offload.Dialect.Kind
import Offload.Dialect.Make
import Offload.Dialect.Parts
import Offload.Effects
import Offload.Fault
import Offload.File
import Offload.Ir.Attribute
import Offload.Ir.Clone
import Offload.Ir.Context
import Offload.Ir.Edit
import Offload.Ir.Handle
import Offload.Ir.Nesting
import Offload.Main
import Offload.Number.Decimal
import Offload.Number.Digits
import Offload.Number.Double
import Offload.Parallel.Interchange
import Offload.Parallel.Merge
import Offload.Parallel.Optimize
import Offload.Pattern.Editor
import Offload.Pattern.Greedy
import Offload.Proofs.Access
import Offload.Proofs.Agreement
import Offload.Proofs.Chains
import Offload.Proofs.Cubin.Serialization
import Offload.Proofs.Device.Annotations
import Offload.Proofs.Device.Arithmetic
import Offload.Proofs.Device.Calls
import Offload.Proofs.Device.CleanUp
import Offload.Proofs.Device.Execution
import Offload.Proofs.Device.Interface
import Offload.Proofs.Device.Kernels
import Offload.Proofs.Device.Link
import Offload.Proofs.Device.Lowered
import Offload.Proofs.Device.Lowering
import Offload.Proofs.Device.Numbers
import Offload.Proofs.Device.Optimize
import Offload.Proofs.Device.Preservation
import Offload.Proofs.Device.Refinement
import Offload.Proofs.Device.Strip
import Offload.Proofs.Device.Sweep
import Offload.Proofs.Device.Typing
import Offload.Proofs.Ir.Abreast
import Offload.Proofs.Ir.AbreastClone
import Offload.Proofs.Ir.AbreastNesting
import Offload.Proofs.Ir.Erasure
import Offload.Proofs.Ir.Interning
import Offload.Proofs.Ir.Reachable
import Offload.Proofs.Ir.Views
import Offload.Proofs.Parallel.Abreast
import Offload.Proofs.Parallel.Alongside
import Offload.Proofs.Parallel.Attempt
import Offload.Proofs.Parallel.Exposure
import Offload.Proofs.Parallel.Functions
import Offload.Proofs.Parallel.Interchange
import Offload.Proofs.Parallel.Locality
import Offload.Proofs.Parallel.Merge
import Offload.Proofs.Parallel.Surroundings
import Offload.Proofs.Parallel.Termination
import Offload.Proofs.Parts
import Offload.Proofs.Pattern.Endless
import Offload.Proofs.Pattern.Fixpoint
import Offload.Proofs.Pattern.Record
import Offload.Proofs.Pattern.Worklist
import Offload.Proofs.Ptx.Assignment
import Offload.Proofs.Ptx.Classes
import Offload.Proofs.Ptx.Registers
import Offload.Proofs.Ptx.Symbols
import Offload.Proofs.ReadOnly
import Offload.Proofs.Source.Alike
import Offload.Proofs.Source.Attributes
import Offload.Proofs.Source.Build
import Offload.Proofs.Source.Congruent
import Offload.Proofs.Source.InStep
import Offload.Proofs.Source.Layout
import Offload.Proofs.Source.Legibility
import Offload.Proofs.Source.Levels
import Offload.Proofs.Source.Line
import Offload.Proofs.Source.Mention
import Offload.Proofs.Source.Named
import Offload.Proofs.Source.Recording
import Offload.Proofs.Source.Replica
import Offload.Proofs.Source.Reread
import Offload.Proofs.Source.Resolution
import Offload.Proofs.Source.RoundTrip
import Offload.Ptx.Assembly
import Offload.Ptx.Emit
import Offload.Ptx.Target
import Offload.SortedMap
import Offload.Source.Build
import Offload.Source.Grammar
import Offload.Source.Printer
import Offload.Source.Quote
import Offload.Source.Read
import Offload.Source.Term
import Offload.Text.Alphanumeric
import Offload.Text.Blank
import Offload.Text.Quoted
import Offload.Text.Reader
import Offload.Text.Utf8
import Offload.Validity
