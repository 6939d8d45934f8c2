import KernelIR.Operand

/-!
# Terminators

The end of a block: which block runs next, or how the function is left.
-/

namespace KernelIR

inductive Terminator where
  | branch (cond : Operand) (ifTrue ifFalse : Label)
  | jump (target : Label)
  | ret (value : Option Operand)
  | unreachable
  deriving DecidableEq, Inhabited

namespace Terminator

def operands : Terminator → List Operand
  | branch cond .. => [cond]
  | ret value => value.toList
  | jump _ | unreachable => []

def mapOperands (g : Operand → Operand) : Terminator → Terminator
  | branch cond ifTrue ifFalse => branch (g cond) ifTrue ifFalse
  | jump target => jump target
  | ret value => ret (value.map g)
  | unreachable => unreachable

def reads (t : Terminator) : List Reg := t.operands.filterMap Operand.reg?

def targets : Terminator → List Label
  | branch _ ifTrue ifFalse => [ifTrue, ifFalse]
  | jump target => [target]
  | ret _ | unreachable => []

def mapTargets (g : Label → Label) : Terminator → Terminator
  | branch cond ifTrue ifFalse => branch cond (g ifTrue) (g ifFalse)
  | jump target => jump (g target)
  | ret value => ret value
  | unreachable => unreachable

@[simp] theorem operands_mapOperands (g : Operand → Operand) (t : Terminator) :
    (t.mapOperands g).operands = t.operands.map g := by
  cases t with
  | ret value => cases value <;> rfl
  | _ => rfl

@[simp] theorem mapOperands_mapOperands (f g : Operand → Operand) (t : Terminator) :
    (t.mapOperands g).mapOperands f = t.mapOperands (f ∘ g) := by
  cases t <;> simp [mapOperands]

theorem mapOperands_congr {f g : Operand → Operand} {t : Terminator}
    (h : ∀ op ∈ t.operands, f op = g op) : t.mapOperands f = t.mapOperands g := by
  cases t with
  | ret value => cases value <;> simp_all [mapOperands, operands]
  | _ => simp_all [mapOperands, operands]

@[simp] theorem targets_mapOperands (g : Operand → Operand) (t : Terminator) :
    (t.mapOperands g).targets = t.targets := by
  cases t <;> rfl

@[simp] theorem targets_mapTargets (g : Label → Label) (t : Terminator) :
    (t.mapTargets g).targets = t.targets.map g := by
  cases t <;> rfl

@[simp] theorem operands_mapTargets (g : Label → Label) (t : Terminator) :
    (t.mapTargets g).operands = t.operands := by
  cases t <;> rfl

end Terminator

end KernelIR
