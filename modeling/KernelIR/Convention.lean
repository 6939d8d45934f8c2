import KernelIR.CallGraph
import KernelIR.Role

/-!
# Calling conventions

A call has to use the convention of its callee, so that setting the convention of a function sets
it on every call that resolves to the function.
-/

namespace KernelIR

def Instr.setCallConv (id : FuncId) (conv : CallConv) : Instr → Instr
  | .call c => if c.callee.resolve? = some id then .call { c with conv } else .call c
  | i => i

def Block.setCallConv (id : FuncId) (conv : CallConv) (b : Block) : Block :=
  { b with instrs := b.instrs.map (Instr.setCallConv id conv) }

/-- Sets the convention of a function and of the calls to it, and counts the calls. -/
def Module.setConv (m : Module) (id : FuncId) (conv : CallConv) : Nat × Module :=
  ((m.callSites id).length,
    (m.modifyFunc id fun f => { f with conv }).mapFuncs
      (Func.mapBlocks (Block.setCallConv id conv)))

namespace ModuleM

def setConv (id : FuncId) (conv : CallConv) : ModuleM Nat := do
  let _ ← func id
  change fun m => m.setConv id conv

/-- Fails if something in the module calls the kernel: kernels are entered from outside. -/
def requireUncalled (graph : CallGraph) (kernel : FuncId) : ModuleM Unit := do
  match graph.callers kernel with
  | [] => pure ()
  | caller :: _ => throw (.kernelCalled (← func kernel).name (← func caller).name)

def useDeviceConventions : ModuleM Unit := do
  let graph := CallGraph.ofModule (← get)
  (← get).funcs.ids.forM fun id => do
    let f ← func id
    if f.isKernel .callingConvention then requireUncalled graph id
    else if !f.isIntrinsic then
      let _ ← setConv id .spirFunc

def markTopFunction (id : FuncId) : ModuleM Unit :=
  change fun m => ((), m.modifyFunc id fun f =>
    { f with conv := .c, attributes := f.attributes.insert topFunctionKey "" })

/-- Marks the kernels as top-level functions.  Other functions use the C convention once the module
is optimized, and that of device functions before; intrinsics and functions that are marked already
stay as they are. -/
def useSynthesisConventions (afterO3 : Bool) : ModuleM Unit := do
  let graph := CallGraph.ofModule (← get)
  (← get).funcs.ids.forM fun id => do
    let f ← func id
    if !f.attributes.contains topFunctionKey && !f.isIntrinsic then
      if f.conv = .spirKernel then
        requireUncalled graph id
        markTopFunction id
      else
        let _ ← setConv id (if afterO3 then .c else .spirFunc)

def unifyConventions (conv : CallConv) : ModuleM Nat := do
  sumOver (← get).funcs.ids fun id => do
    if (← func id).isIntrinsic then return 0
    let _ ← setConv id conv
    return 1

end ModuleM

end KernelIR
