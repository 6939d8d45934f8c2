import KernelIR.Inline
import KernelIR.Role

/-!
# Property wrappers

A wrapper carries annotations for the function that calls it: it hands them over and is inlined.
The walk starts at the kernels and goes depth first through every callee with a body, so that a
wrapper is free of wrapper calls by the time it is inlined itself.

The walk is a machine with an explicit path.  It need not end: a wrapper may call a function that
it gets as an argument, itself included, and inlining it makes the same call again.  So it runs for
a given number of steps, and running out of them is an error of its own.
-/

namespace KernelIR

def wrapperKey : String := "fpga.propertywrapper"

def annotationStem : String := "fpga."

namespace Func

def isWrapper (f : Func) : Bool := f.attributes.contains wrapperKey

/-- What a wrapper hands over: its annotations without the mark of a wrapper. -/
def annotations (f : Func) : List (String × String) :=
  (f.attributes.withStem annotationStem).filter fun e => e.1 != wrapperKey

def annotate (f : Func) (annotations : List (String × String)) : Func :=
  { f with attributes := annotations.foldl (fun a e => a.insert e.1 e.2) f.attributes }

end Func

inductive WrapperStep where
  | unwrap (pos : Position) (wrapper : FuncId)
  | descend (callee : FuncId)
  deriving DecidableEq

/-- The state of the walk: the kernels to start from, the functions being visited, the innermost
first, those that are done, and how many calls were inlined. -/
structure WrapperWalk where
  pending : List FuncId
  path : List FuncId := []
  done : List FuncId := []
  inlined : Nat := 0
  deriving DecidableEq

namespace WrapperWalk

def visited (w : WrapperWalk) (id : FuncId) : Bool := id ∈ w.path || id ∈ w.done

/-- The first call of `f` that calls a wrapper or a function not visited yet. -/
def nextStep? (w : WrapperWalk) (m : Module) (f : Func) : Option WrapperStep :=
  f.calls.findSome? fun (pos, call) =>
    call.callee.resolve?.bind fun id =>
      (m.funcs.get? id).bind fun callee =>
        if callee.isWrapper then some (.unwrap pos id)
        else if !callee.isDeclaration && !w.visited id then some (.descend id)
        else none

/-- Hands the annotations of a wrapper over to a caller and inlines the call. -/
def unwrapCall (site : CallSite) (wrapper : FuncId) : ModuleM Unit := do
  let annotations := (← ModuleM.func wrapper).annotations
  ModuleM.change fun m => ((), m.modifyFunc site.caller fun f => f.annotate annotations)
  ModuleM.edit fun m => (m.inlineAt site).map fun e => ((), e.2)

def step (w : WrapperWalk) : ModuleM (Option WrapperWalk) := do
  match w.path, w.pending with
  | [], [] => return none
  | [], kernel :: rest =>
    if w.visited kernel then return some { w with pending := rest }
    else return some { w with pending := rest, path := [kernel] }
  | id :: outer, _ =>
    let f ← ModuleM.func id
    match w.nextStep? (← get) f with
    | none => return some { w with path := outer, done := id :: w.done }
    | some (.descend callee) => return some { w with path := callee :: w.path }
    | some (.unwrap pos wrapper) =>
      if wrapper ∈ w.path then throw (.wrapperCycle (← ModuleM.func wrapper).name)
      else if wrapper ∈ w.done then
        unwrapCall ⟨id, pos⟩ wrapper
        return some { w with inlined := w.inlined + 1 }
      else return some { w with path := wrapper :: w.path }

def run : Nat → WrapperWalk → ModuleM Nat
  | 0, _ => throw .outOfSteps
  | steps + 1, w => do
    match ← w.step with
    | none => return w.inlined
    | some next => run steps next

end WrapperWalk

/-- Unwraps every wrapper that a kernel reaches and answers the number of calls inlined. -/
def unwrapWrappers (mode : KernelMode) (steps : Nat) : ModuleM Nat := do
  WrapperWalk.run steps { pending := (← get).withRole mode .kernel }

end KernelIR
