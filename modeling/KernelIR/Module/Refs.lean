import KernelIR.Module

/-!
# References to functions

Functions are referred to by calls, by operands and by the initializers of globals.  A function
can be erased when nothing refers to it, and replaced by one of the same prototype.
-/

namespace KernelIR

structure CallSite where
  caller : FuncId
  pos : Position
  deriving DecidableEq, Inhabited

/-- The references of an instruction to `id`.  A call that resolves to `id` is one, whatever form
its target has. -/
def Instr.refCount (id : FuncId) : Instr → Nat
  | .call c => (if c.callee.resolve? = some id then 1 else 0) + c.args.count (.func id)
  | i => i.operands.count (.func id)

def Block.refCount (id : FuncId) (b : Block) : Nat :=
  b.instrs.foldl (fun n i => n + i.refCount id) (b.terminator.operands.count (.func id))

def Func.refCount (id : FuncId) (f : Func) : Nat :=
  f.body.values.foldl (fun n b => n + b.refCount id) 0

namespace Global

def listed (g : Global) : List FuncId :=
  match g.init with
  | some (.functions list) => list
  | _ => []

def mapFuncs (h : FuncId → FuncId) (g : Global) : Global :=
  match g.init with
  | some (.functions list) => { g with init := some (.functions (list.map h)) }
  | _ => g

end Global

namespace Module

def callSites (m : Module) (callee : FuncId) : List CallSite :=
  m.funcs.entries.flatMap fun (caller, f) =>
    (f.calls.filter fun e => e.2.callee.resolve? == some callee).map fun e => ⟨caller, e.1⟩

def refCount (m : Module) (id : FuncId) : Nat :=
  m.globals.values.foldl (fun n g => n + g.listed.count id)
    (m.funcs.values.foldl (fun n f => n + f.refCount id) 0)

def redirect (m : Module) (g : FuncId → FuncId) : Module :=
  { m with
    funcs := m.funcs.map (Func.mapBlocks (Block.mapFuncs g))
    globals := m.globals.map (Global.mapFuncs g) }

def eraseFunc (m : Module) (id : FuncId) : Except IRError (Func × Module) :=
  match m.funcs.get? id with
  | none => .error (.undefinedFunction id.text)
  | some f =>
    let uses := m.refCount id
    if uses = 0 then .ok (f, { m with funcs := m.funcs.erase id })
    else .error (.stillReferenced f.name uses)

def replaceFunc (m : Module) (old new : FuncId) : Except IRError (Func × Module) :=
  match m.funcs.get? old, m.funcs.get? new with
  | none, _ => .error (.undefinedFunction old.text)
  | some _, none => .error (.undefinedFunction new.text)
  | some f, some g =>
    if f.samePrototype g then
      (m.redirect fun id => if id = old then new else id).eraseFunc old
    else .error (.signatureMismatch f.name g.name)

end Module

end KernelIR
