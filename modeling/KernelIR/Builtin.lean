import KernelIR.Demangler
import KernelIR.ModuleM

/-!
# Builtins

Some builtins cannot be implemented by the backend.  The global work-item identifier is folded to
the constant one once the module is optimized.
-/

namespace KernelIR

/-- Readable names of builtins that the backend cannot implement start like this. -/
def unsupportedStem : String := "__spir_ocl_get"

def globalIdName : String := "llvm.spir.get.global.id.i64"

namespace Module

def unsupportedCall? (m : Module) (d : Demangler) (f : Func) : Option Failure :=
  f.calls.findSome? fun e =>
    (e.2.callee.resolve?.bind m.funcs.get?).bind fun callee =>
      if (d.orRaw callee.name).startsWith unsupportedStem then
        some (.unsupported callee.name f.name)
      else none

/-- Fails at the first call to a builtin that the backend cannot implement. -/
def checkBuiltins (m : Module) (d : Demangler) : Except Failure Unit :=
  match m.funcs.values.findSome? (m.unsupportedCall? d) with
  | some e => .error e
  | none => .ok ()

end Module

namespace ModuleM

def foldCall (value : Operand) (site : CallSite) : ModuleM Unit := do
  let caller ← func site.caller
  match caller.removeInstr site.pos with
  | .error e => throw (.illFormed e)
  | .ok (i, f) =>
    let folded := match i with
      | .call ⟨some dest, _, _, _, _⟩ => (f.replaceReads dest value).2
      | _ => f
    change fun m => ((), m.setFunc site.caller folded)

/-- The constant one of a type; undefined if the type has no such constant. -/
def oneOf (ty : Ty) : Operand :=
  match ty.intWidth?.bind fun bits => IntConst.ofNat? bits 1 with
  | some c => .imm c
  | none => .undefined

/-- Folds the calls of the global work-item identifier, erases its declaration, and counts the
calls.  Calls are removed from the last to the first, since a removal moves those behind it. -/
def foldGlobalId : ModuleM Nat := do
  match (← get).findFunc? globalIdName with
  | none => return 0
  | some id =>
    let builtin ← func id
    if !builtin.isDeclaration then return 0
    let sites := (← get).callSites id
    sites.reverse.forM (foldCall (oneOf builtin.retTy))
    edit fun m => (IRError.lift (m.eraseFunc id)).map fun e => ((), e.2)
    return sites.length

end ModuleM

end KernelIR
