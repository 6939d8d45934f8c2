import KernelIR.OrderedMap

/-!
# Demanglers

A demangler knows readable forms of some symbols.
-/

namespace KernelIR

abbrev Demangler := String → Option String

namespace Demangler

def none : Demangler := fun _ => .none

/-- A symbol that is not known stays as it is. -/
def orRaw (d : Demangler) (symbol : String) : String := (d symbol).getD symbol

def ofTable (table : OrderedMap String String) : Demangler := table.find?

end Demangler

end KernelIR
