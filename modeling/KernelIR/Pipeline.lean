import KernelIR.Declaration
import KernelIR.DeviceNamer
import KernelIR.GenericCast
import KernelIR.KernelName
import KernelIR.ParamName
import KernelIR.Preparation
import KernelIR.VersionStamp
import KernelIR.WorkGroupSize

/-!
# The pipeline

Preparation, kernels, device functions, declarations and finishing touches, in this order.  Roles
are taken once, after the preparation and before any renaming; declarations come after all
definitions have their final names.
-/

namespace KernelIR

structure PipelineCounts where
  preparation : Option PreparationCounts := none
  kernels : Nat := 0
  renamedKernels : Nat := 0
  workGroupSizes : Nat := 0
  deviceFunctions : Nat := 0
  namedParams : Nat := 0
  collapsedCasts : Nat := 0
  boundDeclarations : Nat := 0
  deriving DecidableEq, Inhabited

namespace Pipeline

open ModuleM

def nameParams (id : FuncId) : ModuleM Nat := do
  let (count, f) := (← func id).nameParams
  change fun m => (count, m.setFunc id f)

def decorateKernel (d : Demangler) (counts : PipelineCounts) (id : FuncId) :
    ModuleM PipelineCounts := do
  let sized ← edit fun m => m.attachWorkGroupSize id d
  let renamed ← edit fun m => m.setKernelName id
  let named ← nameParams id
  let collapsed ← collapseGenericCasts id
  return { counts with
    workGroupSizes := counts.workGroupSizes + if sized then 1 else 0
    renamedKernels := counts.renamedKernels + if renamed.isSome then 1 else 0
    namedParams := counts.namedParams + named
    collapsedCasts := counts.collapsedCasts + collapsed }

def nameDeviceFunction (state : DeviceNamer × PipelineCounts) (id : FuncId) :
    ModuleM (DeviceNamer × PipelineCounts) := do
  let (namer, counts) := state
  let (_, namer) ← namer.rename id
  let named ← nameParams id
  let collapsed ← collapseGenericCasts id
  return (namer, { counts with
    namedParams := counts.namedParams + named
    collapsedCasts := counts.collapsedCasts + collapsed })

/-- Stamps the versions and makes the last changes that are configured. -/
def finish (c : Config) : ModuleM Unit := do
  change fun m => ((), m.stampVersions)
  let _ ← change Module.dropSourceRecord
  if c.setTriple then change fun m => ((), m.retarget)
  match c.uniformConv with
  | some conv => let _ ← unifyConventions conv
  | none => pure ()

/-- Runs the pipeline; wrappers are unwrapped in at most `steps` steps. -/
def run (c : Config) (d : Demangler) (steps : Nat) : ModuleM PipelineCounts := do
  let flow := c.flowFor (← get)
  let preparation ←
    if c.runPreparation then some <$> prepare flow c.afterO3 d steps else pure none
  let prepared ← get
  let kernels := prepared.withRole flow.kernelMode .kernel
  let deviceFunctions := prepared.withRole flow.kernelMode .deviceFunction
  let declarations := prepared.withRole flow.kernelMode .declaration
  let counts ← kernels.foldlM (decorateKernel d)
    { preparation, kernels := kernels.length, deviceFunctions := deviceFunctions.length }
  let (_, counts) ← deviceFunctions.foldlM nameDeviceFunction ({}, counts)
  let boundDeclarations ← bindDeclarations declarations
  finish c
  return { counts with boundDeclarations }

end Pipeline

end KernelIR
