import KernelIR.ModuleM
import KernelIR.Stem
import KernelIR.Uuid

/-!
# Kernel names

Backends choke on most characters of mangled names, so a kernel is called by a hash of its name.
Whoever looks for the kernel computes the same hash, so that the derivation never changes.
-/

namespace KernelIR

namespace KernelName

def stem : String := "xSYCL"

/-- The longest symbol that the backend takes, a compute unit's suffix included. -/
def lengthLimit : Nat := 64

def suffixRoom : Nat := 2

def uuid (name : String) : Uuid := .ofName .dns name

def synthesize (name : String) : String := stem ++ toString (uuid name).hash.toNat

def isSynthesized (name : String) : Bool :=
  match afterStem? stem.toList name.toList with
  | some digits => !digits.isEmpty && digits.all Char.isDigit
  | none => false

/-- Lengths are those of the encoded text. -/
def checkLength (name : String) : Except Failure Unit :=
  let length := name.utf8ByteSize + suffixRoom
  if length ≤ lengthLimit then .ok () else .error (.kernelNameTooLong name length lengthLimit)

end KernelName

def Module.setKernelName (m : Module) (id : FuncId) :
    Except Failure (Option String × Module) :=
  match m.funcs.get? id with
  | none => .error (.deadHandle id)
  | some f =>
    if KernelName.isSynthesized f.name then .ok (none, m)
    else
      let name := KernelName.synthesize f.name
      match KernelName.checkLength name with
      | .error e => .error e
      | .ok () =>
        match m.renameFunc id name with
        | .error e => .error (.illFormed e)
        | .ok m' => .ok (some name, m')

end KernelIR
