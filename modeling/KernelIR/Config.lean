import KernelIR.Role
import KernelIR.Stem

/-!
# Configuration

What the pipeline does, and for which backend.
-/

namespace KernelIR

/-- The backend: one that takes modules of device functions, or high-level synthesis. -/
inductive Flow where
  | spir
  | hls
  deriving DecidableEq, Inhabited

namespace Flow

/-- The architecture of a triple is what stands before the first hyphen.  One that starts with
`fpga` and has `hls` in it is for synthesis. -/
def ofTriple (triple : String) : Flow :=
  let arch := triple.toList.takeWhile (· != '-')
  if (afterStem? "fpga".toList arch).isSome && (fromStem? "hls".toList arch).isSome then hls
  else spir

def kernelMode : Flow → KernelMode
  | spir => .callingConvention
  | hls => .topFunctionAttribute

end Flow

structure Config where
  flow : Option Flow := none
  afterO3 : Bool := false
  runPreparation : Bool := true
  setTriple : Bool := false
  uniformConv : Option CallConv := none
  deriving DecidableEq, Inhabited

/-- The flow that is configured, else the one that the triple of the module implies. -/
def Config.flowFor (c : Config) (m : Module) : Flow :=
  match c.flow, m.triple with
  | some flow, _ => flow
  | none, some triple => .ofTriple triple
  | none, none => .spir

end KernelIR
