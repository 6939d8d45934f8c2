import KernelIR.ModuleM

/-!
# Call graph

Who calls whom, by resolved callee.  A function that calls itself is one of its own callers.
-/

namespace KernelIR

/-- The functions that `f` calls, one mention for each call. -/
def Func.callees (f : Func) : List FuncId := f.calls.filterMap fun e => e.2.callee.resolve?

/-- The edges of the graph in the order of their calls; both ends are live. -/
structure CallGraph where
  edges : List (FuncId × FuncId)
  deriving DecidableEq, Inhabited

namespace CallGraph

def ofModule (m : Module) : CallGraph where
  edges := m.funcs.entries.flatMap fun (caller, f) =>
    (f.callees.filter m.funcs.contains).map fun callee => (caller, callee)

/-- Each caller once, in the order of their first calls. -/
def callers (g : CallGraph) (callee : FuncId) : List FuncId :=
  ((g.edges.filter fun e => e.2 = callee).map (·.1)).eraseDups

end CallGraph

end KernelIR
