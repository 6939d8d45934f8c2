import KernelIR.Operand

/-!
# Ill-formed modules

The ways in which a module, or a request to edit one, is not well formed.
-/

namespace KernelIR

/-- The instruction number `index` of block `label`. -/
structure Position where
  label : Label
  index : Nat
  deriving DecidableEq, Inhabited

inductive IRError where
  | duplicateDef (function : String) (r : Reg)
  | missingEntry (function : String)
  | undefinedReg (function : String) (r : Reg)
  | undefinedArg (function : String) (index count : Nat)
  | undefinedBlock (function : String) (label : Label)
  | undefinedInstr (function : String) (pos : Position)
  | undefinedFunction (function : String)
  | undefinedGlobal (function : String)
  | duplicateSymbol (name : String)
  | signatureMismatch (old new : String)
  | stillReferenced (function : String) (uses : Nat)
  | notACall (function : String) (pos : Position)
  deriving DecidableEq, Inhabited

def IRError.message : IRError → String
  | duplicateDef function r =>
    "Multiple operations with shared destination target violate SSA requirements. " ++
      s!"The name `{r.text}` is defined more than once within function `{function}`."
  | missingEntry function =>
    "By convention, the entrypoint basic block of a function must have label " ++
      s!"`{Label.entry.text}`. No such basic block was found in function `{function}`."
  | undefinedReg function r =>
    s!"An operand of function `{function}` refers to an undefined name: `{r.text}`."
  | undefinedArg function index count =>
    s!"An operand of function `{function}` refers to argument #{index}, " ++
      s!"but the function only has {count} parameters."
  | undefinedBlock function label =>
    s!"The basic block `{label.text}` referenced in function `{function}` " ++
      "is not defined within the function."
  | undefinedInstr function pos =>
    s!"Basic block `{pos.label.text}` of function `{function}` " ++
      s!"has no instruction at index {pos.index}."
  | undefinedFunction function =>
    s!"Function `{function}` refers to a function handle that is not part of the module."
  | undefinedGlobal function =>
    s!"Function `{function}` refers to a global handle that is not part of the module."
  | duplicateSymbol name => s!"A symbol named `{name}` already exists in the module."
  | signatureMismatch old new =>
    s!"Function `{old}` cannot be replaced by `{new}`: their prototypes differ."
  | stillReferenced function uses =>
    s!"Function `{function}` cannot be erased: it still has {uses} use(s)."
  | notACall function pos =>
    s!"Instruction {pos.index} of basic block `{pos.label.text}` " ++
      s!"in function `{function}` is not a call."

end KernelIR
