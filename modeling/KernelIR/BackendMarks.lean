import KernelIR.Role

/-!
# Marks for the backend

Linkage and attributes that tell the backend's inliner what it may do.
-/

namespace KernelIR

/-- The list of module constructors, which has to stay visible. -/
def constructorsName : String := "llvm.global_ctors"

def flattenKey : String := "flatten"

namespace Func

/-- Defined, and neither a kernel in any flow nor the list of constructors. -/
def isHideable (f : Func) : Bool :=
  !f.isKernel .topFunctionAttribute && f.name != constructorsName && !f.isDeclaration

def isInlinable (f : Func) : Bool :=
  !f.isDeclaration && !f.isKernel .callingConvention

def isFlattened (f : Func) : Bool :=
  f.isKernel .topFunctionAttribute || f.attributes.flags.noInline

end Func

def Global.isHideable (g : Global) : Bool :=
  g.name != constructorsName && !g.isDeclaration

namespace Module

def hideSymbols (m : Module) : Nat × Module :=
  (m.funcs.values.countP Func.isHideable + m.globals.values.countP Global.isHideable,
    { m with
      funcs := m.funcs.map fun f =>
        if f.isHideable then { f with comdat := none, linkage := .privateSymbol } else f
      globals := m.globals.map fun g =>
        if g.isHideable then { g with comdat := none, linkage := .privateSymbol } else g })

/-- Asks for every definition but kernels to be inlined, and counts them. -/
def requestInlining (m : Module) : Nat × Module :=
  (m.funcs.values.countP Func.isInlinable,
    m.mapFuncs fun f =>
      if f.isInlinable then
        { f with attributes := f.attributes.insertFlags { alwaysInline := true } }
      else f)

/-- Marks kernels, and functions that are not to be inlined, as flattened, and counts them. -/
def requestFlattening (m : Module) : Nat × Module :=
  (m.funcs.values.countP Func.isFlattened,
    m.mapFuncs fun f =>
      if f.isFlattened then { f with attributes := f.attributes.insert flattenKey "" } else f)

end Module

end KernelIR
