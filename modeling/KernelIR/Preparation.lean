import KernelIR.BackendMarks
import KernelIR.Builtin
import KernelIR.CallCast
import KernelIR.Config
import KernelIR.Convention
import KernelIR.MemoryLoop
import KernelIR.Wrapper

/-!
# Preparation

What comes before any renaming: wrappers are unwrapped, symbols hidden, memory intrinsics expanded,
casts of callees removed, and the conventions of the flow set.
-/

namespace KernelIR

structure PreparationCounts where
  unwrapped : Nat := 0
  hidden : Nat := 0
  expanded : Nat := 0
  uncast : Nat := 0
  folded : Nat := 0
  deriving DecidableEq, Inhabited

namespace ModuleM

/-- Fails at the first call to a builtin that the backend cannot implement. -/
def checkBuiltins (d : Demangler) : ModuleM Unit :=
  edit fun m => (m.checkBuiltins d).map fun _ => ((), m)

/-- Sets the conventions of a flow and the marks for its inliner, and counts the builtin calls that
were folded. -/
def prepareFlow (flow : Flow) (afterO3 : Bool) (d : Demangler) : ModuleM Nat := do
  match flow with
  | .spir =>
    useDeviceConventions
    let _ ← change Module.requestInlining
    return 0
  | .hls =>
    useSynthesisConventions afterO3
    checkBuiltins d
    let folded ← if afterO3 then foldGlobalId else pure 0
    let _ ← change Module.requestFlattening
    return folded

/-- Prepares the module for a flow; wrappers are unwrapped in at most `steps` steps. -/
def prepare (flow : Flow) (afterO3 : Bool) (d : Demangler) (steps : Nat) :
    ModuleM PreparationCounts := do
  let unwrapped ← unwrapWrappers flow.kernelMode steps
  let hidden ← change Module.hideSymbols
  let expanded ← expandMemCalls
  let uncast ← dropCallCasts
  let folded ← prepareFlow flow afterO3 d
  return { unwrapped, hidden, expanded, uncast, folded }

end ModuleM

end KernelIR
