import KernelIR.ModuleM

/-!
# Generic casts around the black box

The backend has an opaque intrinsic whose pointer arguments must not be generic.  A cast to the
generic address space that feeds it is collapsed: what it casts is read in its place, there and
everywhere else.
-/

namespace KernelIR

/-- The intrinsic that is not looked into. -/
def blackBoxName : String := "_ssdm_SpecArrayPartition"

namespace Func

def isGenericCast (f : Func) (r : Reg) : Bool :=
  match f.findDef? r with
  | some (_, .cast c) => c.isGeneric
  | _ => false

/-- The generic casts that calls to `blackBox` get, each once, in the order of the arguments. -/
def genericArgs (f : Func) (blackBox : FuncId) : List Reg :=
  let passed := (f.calls.filter fun e => e.2.callee.resolve? = some blackBox).flatMap fun e =>
    e.2.args.filterMap Operand.reg?
  (passed.filter f.isGenericCast).eraseDups

end Func

namespace ModuleM

def collapseCast (id : FuncId) (r : Reg) : ModuleM Nat := do
  let f ← func id
  match f.findDef? r with
  | none => return 0
  | some (pos, _) =>
    match f.removeInstr pos with
    | .error e => throw (.illFormed e)
    | .ok (.cast c, f') =>
      change fun m => (1, m.setFunc id (f'.replaceReads r c.value).2)
    | .ok (_, f') => change fun m => (0, m.setFunc id f')

/-- Collapses the generic casts that a function passes to the black box, and counts them. -/
def collapseGenericCasts (id : FuncId) : ModuleM Nat := do
  match (← get).findFunc? blackBoxName with
  | none => return 0
  | some blackBox => sumOver ((← func id).genericArgs blackBox) (collapseCast id)

end ModuleM

end KernelIR
