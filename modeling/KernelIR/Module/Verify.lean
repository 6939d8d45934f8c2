import KernelIR.Module.Refs

/-!
# Verification of a module

Symbol names are distinct, every body is in single-assignment form, and the handles that
instructions hold are live.
-/

namespace KernelIR.Module

/-- What is wrong with an operand of the function called `function`, if anything. -/
def handleFault? (m : Module) (function : String) : Operand → Option IRError
  | .func id => if m.funcs.contains id then none else some (.undefinedFunction function)
  | .global id => if m.globals.contains id then none else some (.undefinedGlobal function)
  | _ => none

/-- The target of a call comes before the operands. -/
def instrFault? (m : Module) (function : String) (i : Instr) : Option IRError :=
  let target := i.call?.bind fun c => c.callee.resolve?
  (target.bind fun id => m.handleFault? function (.func id)).or
    (i.operands.findSome? (m.handleFault? function))

def funcFault? (m : Module) (f : Func) : Option IRError :=
  f.ssaFault?.or (f.instrs.findSome? fun e => m.instrFault? f.name e.2)

def fault? (m : Module) : Option IRError :=
  ((firstRepeat? m.symbols).map IRError.duplicateSymbol).or
    (m.funcs.values.findSome? m.funcFault?)

def verify (m : Module) : Except IRError Unit :=
  match m.fault? with
  | none => .ok ()
  | some e => .error e

end KernelIR.Module
