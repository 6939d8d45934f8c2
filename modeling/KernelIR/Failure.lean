import KernelIR.Error

/-!
# Failures

Why a module cannot be brought into the form that the backend takes.
-/

namespace KernelIR

inductive InlineObstacle where
  | indirect
  | recursive
  | unknownCallee
  | noBody (callee : String)
  | arity (callee : String) (expected passed : Nat)
  deriving DecidableEq, Inhabited

def InlineObstacle.message : InlineObstacle → String
  | indirect => "indirect call"
  | recursive => "recursive call"
  | unknownCallee => "unknown callee"
  | noBody callee => s!"'{callee}' has no body"
  | arity callee expected passed =>
    s!"'{callee}' expects {expected} argument(s), the call passes {passed}"

inductive Failure where
  | workGroupSize (kernel marked : String) (found : Nat)
  | unsupported (symbol caller : String)
  | kernelCalled (kernel caller : String)
  | lengthField (symbol stem : String)
  | collision (source target : String)
  | kernelNameTooLong (name : String) (length limit : Nat)
  | wrapperCycle (function : String)
  | notInlinable (caller : String) (obstacle : InlineObstacle)
  | illFormed (e : IRError)
  | deadHandle (id : FuncId)
  | missingLabel (label : Label)
  | outOfSteps
  | overflow
  deriving DecidableEq, Inhabited

def Failure.message : Failure → String
  | workGroupSize kernel marked found =>
    s!"The reqd_work_group_size property of kernel '{kernel}' has {found} dimension(s), " ++
      s!"exactly 3 are required: '{marked}'"
  | unsupported symbol caller =>
    s!"Function '{caller}' calls '{symbol}', a builtin the backend does not support"
  | kernelCalled kernel caller =>
    s!"Symbol '{kernel}' has no counterpart: kernel is called from '{caller}'"
  | lengthField symbol stem =>
    s!"Symbol '{symbol}' carries prefix '{stem}' but its length field cannot hold it"
  | collision source target =>
    s!"Renaming '{source}' to '{target}' collides with an existing symbol " ++
      "of a different prototype"
  | kernelNameTooLong name length limit =>
    s!"Kernel name '{name}' is {length} characters long, the backend accepts at most {limit} " ++
      "including the compute unit suffix"
  | wrapperCycle function =>
    s!"Property wrapper '{function}' is reached again while it is being unwrapped"
  | notInlinable caller obstacle => s!"Cannot inline call in '{caller}': {obstacle.message}"
  | illFormed e => s!"Invalid IR: {e.message}"
  | deadHandle id => s!"The handle {id.text} is not part of the module"
  | missingLabel label => s!"The body has no block {label.text}"
  | outOfSteps => "The step bound is used up"
  | overflow => "There are no more words to number registers or labels with"

def IRError.lift {α : Type} (x : Except IRError α) : Except Failure α := x.mapError .illFormed

end KernelIR
