import KernelIR.ModuleM

/-!
# Names of device functions

Device functions are called `sycl_func_0`, `sycl_func_1` and so on.  A number whose name another
symbol has is skipped, and no number is handed out twice.
-/

namespace KernelIR

/-- The least number that was not handed out or skipped. -/
structure DeviceNamer where
  counter : Nat := 0
  deriving DecidableEq, Inhabited

namespace DeviceNamer

def name (n : Nat) : String := s!"sycl_func_{n}"

/-- The function has the name, or no symbol does. -/
def isFree (m : Module) (f : Func) (name : String) : Bool := f.name == name || !m.isTaken name

/-- The least number from the counter on whose name is free for `f`.  Of more names than there are
symbols one is free. -/
def number (n : DeviceNamer) (m : Module) (f : Func) : Nat :=
  let bound := m.symbols.length
  n.counter + (((List.range (bound + 1)).find? fun k => isFree m f (name (n.counter + k))).getD
    bound)

def next (n : DeviceNamer) (id : FuncId) : ModuleM (String × DeviceNamer) := do
  let f ← ModuleM.func id
  let number := n.number (← get) f
  return (name number, ⟨number + 1⟩)

def rename (n : DeviceNamer) (id : FuncId) : ModuleM (String × DeviceNamer) := do
  let (name, n') ← n.next id
  ModuleM.edit fun m => (IRError.lift (m.renameFunc id name)).map fun m' => ((), m')
  return (name, n')

end DeviceNamer

end KernelIR
