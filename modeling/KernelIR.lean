import KernelIR.Config.Reader
import KernelIR.Listing
import KernelIR.Pipeline
import KernelIR.Proofs.BlackBox
import KernelIR.Proofs.CallCasts.Words
import KernelIR.Proofs.CastChains
import KernelIR.Proofs.Failing.Run
import KernelIR.Proofs.FoldedCalls
import KernelIR.Proofs.Handles.Run
import KernelIR.Proofs.InPlace.Atomic
import KernelIR.Proofs.Inline.Exact
import KernelIR.Proofs.Inline.Meaning
import KernelIR.Proofs.Mangling.Normalized
import KernelIR.Proofs.Mangling.Slices
import KernelIR.Proofs.Memory.Expand
import KernelIR.Proofs.Memory.Words
import KernelIR.Proofs.Naming.KernelLength
import KernelIR.Proofs.Naming.Merged
import KernelIR.Proofs.Naming.Pipeline
import KernelIR.Proofs.Naming.Rerun
import KernelIR.Proofs.Naming.SecondPass
import KernelIR.Proofs.Phis
import KernelIR.Proofs.Reads
import KernelIR.Proofs.Replacement
import KernelIR.Proofs.SingleAssignment
import KernelIR.Proofs.TopFunctions
import KernelIR.Proofs.WellFormed.Pipeline
import KernelIR.Proofs.WorkGroups.Marked
import KernelIR.Proofs.Wrapper.Annotations
import KernelIR.Proofs.Wrapper.Cycle
import KernelIR.Proofs.Wrapper.Resolved
