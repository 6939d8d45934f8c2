import KernelIR.Func

/-!
# Parameter names

Parameters without a name are called `arg_0`, `arg_1` and so on, the number counting those without
a name only.
-/

namespace KernelIR

namespace Param

def numbered (k : Nat) : String := s!"arg_{k}"

def nameAll (k : Nat) : List Param → List Param
  | [] => []
  | p :: ps =>
    if p.hasName then p :: nameAll k ps
    else { p with name := some (numbered k) } :: nameAll (k + 1) ps

end Param

def Func.nameParams (f : Func) : Nat × Func :=
  (f.params.countP fun p => !p.hasName, { f with params := Param.nameAll 0 f.params })

end KernelIR
