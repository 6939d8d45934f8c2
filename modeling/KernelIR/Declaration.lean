import KernelIR.MangledName

/-!
# Names of declarations

Declarations lose the stems of builtin name spaces, so that the backend library binds them.  A
declaration whose new name another function has is merged into that function if they have one
prototype.
-/

namespace KernelIR

namespace Module

/-- Gives a declaration its normalized name, or merges it, and answers the name if it is new. -/
def bindDeclaration (m : Module) (id : FuncId) :
    Except Failure (Option String × Module) :=
  match m.funcs.get? id with
  | none => .error (.deadHandle id)
  | some f =>
    match MangledName.normalize f.name with
    | .error e => .error e
    | .ok name =>
      if name = f.name then .ok (none, m)
      else if (m.findGlobal? name).isSome then .error (.collision f.name name)
      else
        match m.findFunc? name with
        | none =>
          match m.renameFunc id name with
          | .error e => .error (.illFormed e)
          | .ok m' => .ok (some name, m')
        | some existing =>
          match m.funcs.get? existing with
          | none => .error (.deadHandle existing)
          | some g =>
            if g.samePrototype f then
              match m.replaceFunc id existing with
              | .error e => .error (.illFormed e)
              | .ok (_, m') => .ok (some name, m')
            else .error (.collision f.name name)

end Module

/-- Normalizes declarations in order, and counts those that were renamed or merged. -/
def bindDeclarations (ids : List FuncId) : ModuleM Nat :=
  ModuleM.sumOver ids fun id => do
    match ← ModuleM.edit fun m => m.bindDeclaration id with
    | some _ => return 1
    | none => return 0

end KernelIR
