import KernelIR.Func
import KernelIR.Repeat

/-!
# Single assignment

A body is in single-assignment form when it has an entry block, defines no register twice, reads
only registers that it defines and parameters that it has, and names only blocks that it has.
-/

namespace KernelIR.Func

def operandFault? (f : Func) : Operand → Option IRError
  | .reg r => if r ∈ f.dests then none else some (.undefinedReg f.name r)
  | .arg index =>
    if index < f.params.length then none
    else some (.undefinedArg f.name index f.params.length)
  | _ => none

def labelFault? (f : Func) (label : Label) : Option IRError :=
  if f.body.contains label then none else some (.undefinedBlock f.name label)

/-- Operands come first, then the targets of the terminator, then the blocks that phis name. -/
def blockFault? (f : Func) (b : Block) : Option IRError :=
  (b.operands.findSome? f.operandFault?).or
    ((b.terminator.targets ++ b.phiLabels).findSome? f.labelFault?)

/-- The first violation of single-assignment form; a declaration has none. -/
def ssaFault? (f : Func) : Option IRError :=
  if f.isDeclaration then none
  else if !f.body.contains .entry then some (.missingEntry f.name)
  else
    ((firstRepeat? f.dests).map (IRError.duplicateDef f.name)).or
      (f.body.values.findSome? f.blockFault?)

def checkSSA (f : Func) : Except IRError Unit :=
  match f.ssaFault? with
  | none => .ok ()
  | some e => .error e

end KernelIR.Func
