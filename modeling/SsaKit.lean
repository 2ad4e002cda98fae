import SsaKit.Builder.Aggregate
import SsaKit.Builder.Arithmetic
import SsaKit.Builder.Control
import SsaKit.Builder.Memory
import SsaKit.Demo
import SsaKit.Integrity
import SsaKit.Listing
import SsaKit.Machine.Run
import SsaKit.Main
import SsaKit.Proofs.Accounting
import SsaKit.Proofs.Addressing
import SsaKit.Proofs.Agreement
import SsaKit.Proofs.Arrival
import SsaKit.Proofs.Attempt
import SsaKit.Proofs.Bitcast
import SsaKit.Proofs.ByteText
import SsaKit.Proofs.Call
import SsaKit.Proofs.CallFrames
import SsaKit.Proofs.Chain
import SsaKit.Proofs.Change
import SsaKit.Proofs.Comparison
import SsaKit.Proofs.Constant
import SsaKit.Proofs.ConstantPropagation
import SsaKit.Proofs.Containment
import SsaKit.Proofs.Content
import SsaKit.Proofs.ControlFlow
import SsaKit.Proofs.DeadCode
import SsaKit.Proofs.DeletionGuard
import SsaKit.Proofs.DemoRuns
import SsaKit.Proofs.ElementPtr
import SsaKit.Proofs.Emission
import SsaKit.Proofs.Ending
import SsaKit.Proofs.Endurance
import SsaKit.Proofs.Erasure
import SsaKit.Proofs.Evaluation
import SsaKit.Proofs.FailedEmission
import SsaKit.Proofs.Fault
import SsaKit.Proofs.Fixpoint
import SsaKit.Proofs.Folding
import SsaKit.Proofs.Footprint
import SsaKit.Proofs.Framing
import SsaKit.Proofs.GlobalNames
import SsaKit.Proofs.HiddenFaults
import SsaKit.Proofs.IntegerArithmetic
import SsaKit.Proofs.IntegerCast
import SsaKit.Proofs.Layout
import SsaKit.Proofs.Legality
import SsaKit.Proofs.LoadedTypes
import SsaKit.Proofs.LocalNames
import SsaKit.Proofs.MemoryLimit
import SsaKit.Proofs.Mirroring
import SsaKit.Proofs.Necessity
import SsaKit.Proofs.Operation
import SsaKit.Proofs.Order
import SsaKit.Proofs.Origin
import SsaKit.Proofs.Overrun
import SsaKit.Proofs.Oversights
import SsaKit.Proofs.Parallel
import SsaKit.Proofs.PhiOrder
import SsaKit.Proofs.PointerArithmetic
import SsaKit.Proofs.PointerPath
import SsaKit.Proofs.ProgramOrder
import SsaKit.Proofs.Reachable
import SsaKit.Proofs.ReadOverWrite
import SsaKit.Proofs.Refusal
import SsaKit.Proofs.Relocation
import SsaKit.Proofs.Replacement
import SsaKit.Proofs.Returns
import SsaKit.Proofs.Run
import SsaKit.Proofs.Scopes
import SsaKit.Proofs.Search
import SsaKit.Proofs.Separation
import SsaKit.Proofs.ShapedEvaluation
import SsaKit.Proofs.Spending
import SsaKit.Proofs.StableTypes
import SsaKit.Proofs.Stage
import SsaKit.Proofs.StoredFloats
import SsaKit.Proofs.StrictListing
import SsaKit.Proofs.SymbolTables
import SsaKit.Proofs.Threads
import SsaKit.Proofs.Tracking
import SsaKit.Proofs.TypeSoundness
import SsaKit.Proofs.TypeTable
import SsaKit.Proofs.TypeText
import SsaKit.Proofs.TypedDatum
import SsaKit.Proofs.TypedEmission
import SsaKit.Proofs.TypedEvaluation
import SsaKit.Proofs.TypedMemory
import SsaKit.Proofs.TypedRuns
import SsaKit.Proofs.Typing
import SsaKit.Proofs.UnneededSymbols
import SsaKit.Proofs.UnreachableBlocks
import SsaKit.Proofs.Unrolling
import SsaKit.Proofs.Verification
import SsaKit.Proofs.VerifiedPasses
import SsaKit.Proofs.Walk
import SsaKit.Proofs.Weight
import SsaKit.Proofs.Widening
import SsaKit.Stored.Module
import SsaKit.Stored.Setting
import SsaKit.Target
import SsaKit.Transform.Pipeline
import SsaKit.Verify
