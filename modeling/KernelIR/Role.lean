import KernelIR.Module

/-!
# Roles

A function is a kernel, a device function or a declaration that the backend library binds.  Other
functions have no role and keep their names.
-/

namespace KernelIR

/-- What marks a kernel: its calling convention alone, or the attribute of a top-level function as
well. -/
inductive KernelMode where
  | callingConvention
  | topFunctionAttribute
  deriving DecidableEq, Inhabited

inductive Role where
  | kernel
  | deviceFunction
  | declaration
  deriving DecidableEq, Inhabited

def topFunctionKey : String := "fpga.top.func"

namespace Func

def isKernel (f : Func) (mode : KernelMode) : Bool :=
  f.conv == .spirKernel ||
    (mode == .topFunctionAttribute && f.attributes.contains topFunctionKey)

def role? (f : Func) (mode : KernelMode) : Option Role :=
  if f.isKernel mode then some .kernel
  else if f.conv ≠ .spirFunc ∨ f.isIntrinsic then none
  else if f.isDeclaration then some .declaration
  else some .deviceFunction

end Func

def Module.withRole (m : Module) (mode : KernelMode) (role : Role) : List FuncId :=
  (m.funcs.entries.filter fun e => e.2.role? mode = some role).map (·.1)

end KernelIR
