import KernelIR.Arena
import KernelIR.IntConst

/-!
# Operands

Registers, labels and the values that instructions and terminators read.
-/

namespace KernelIR

abbrev Reg := Nat

def Reg.text (r : Reg) : String := s!"%{r}"

abbrev Label := Nat

/-- Every body is entered at this block. -/
def Label.entry : Label := 0

def Label.text (l : Label) : String := s!"block_{l}"

inductive Operand where
  | reg (r : Reg)
  | arg (index : Nat)
  | imm (const : IntConst)
  | func (f : FuncId)
  | global (g : GlobalId)
  | undefined
  deriving DecidableEq, Inhabited

namespace Operand

def reg? : Operand → Option Reg
  | reg r => some r
  | _ => none

def mapReg (f : Reg → Reg) : Operand → Operand
  | reg r => reg (f r)
  | op => op

def mapFunc (f : FuncId → FuncId) : Operand → Operand
  | func g => func (f g)
  | op => op

def replaceReg (r : Reg) (value : Operand) (op : Operand) : Operand :=
  if op = reg r then value else op

@[simp] theorem reg?_eq_some_iff {op : Operand} {r : Reg} : op.reg? = some r ↔ op = reg r := by
  cases op <;> simp [reg?]

end Operand

end KernelIR
