import KernelIR.Module

/-!
# Version stamps

Named metadata that the backend reads, and the record that it does not understand.
-/

namespace KernelIR.Module

/-- Appends the versions of the two standards that the module follows.  Each time they are appended
again. -/
def stampVersions (m : Module) : Module :=
  (m.addNamed "opencl.spir.version" (.ofNats [2, 0])).addNamed "opencl.ocl.version" (.ofNats [1, 2])

def sourceRecord : String := "spirv.Source"

/-- Drops the record of the source language, and tells whether there was one. -/
def dropSourceRecord (m : Module) : Bool × Module :=
  (m.named.contains sourceRecord, m.eraseNamed sourceRecord)

def retarget (m : Module) : Module := { m with triple := some "spir64" }

end KernelIR.Module
