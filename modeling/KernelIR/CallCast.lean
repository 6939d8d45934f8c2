import KernelIR.ModuleM

/-!
# Calls through casts

A call through a cast of its callee becomes a direct call when nobody reads its result and all
parameters and arguments are pointers.  The arguments are cast instead.
-/

namespace KernelIR

namespace Module

/-- The function behind a cast that can be dropped, if the call has one. -/
def droppableCast? (m : Module) (f : Func) (call : Call) : Option FuncId :=
  match call.callee with
  | .cast id =>
    match m.funcs.get? id with
    | none => none
    | some target =>
      if call.dest.all (fun r => f.readCount r = 0) &&
          target.params.length == call.args.length &&
          target.params.all (fun p => p.ty.isPointer) &&
          call.args.all (fun op => (m.valueTy? f op).any Ty.isPointer)
      then some id
      else none
  | _ => none

def findDroppableCast? (m : Module) : Option (CallSite × FuncId) :=
  m.funcs.entries.findSome? fun (caller, f) =>
    f.calls.findSome? fun (pos, call) =>
      (m.droppableCast? f call).map fun id => (⟨caller, pos⟩, id)

def castCallCount (m : Module) : Nat :=
  m.funcs.values.foldl (fun n f => n + f.calls.countP fun e =>
    match e.2.callee with
    | .cast _ => true
    | _ => false) 0

end Module

/-- The casts that bring arguments to the parameter types, with results from `next` on, and the
arguments that are passed in the end. -/
def adaptArgs (next : Reg) : List ((Operand × Option Ty) × Ty) → List Instr × List Operand
  | [] => ([], [])
  | ((arg, argTy), ty) :: rest =>
    if argTy = some ty then
      let (casts, args) := adaptArgs next rest
      (casts, arg :: args)
    else
      let kind := if argTy.bind Ty.addressSpace? = ty.addressSpace? then .bitcast
        else .addrSpaceCast
      let (casts, args) := adaptArgs (next + 1) rest
      (.cast ⟨next, kind, arg, ty⟩ :: casts, .reg next :: args)

/-- `adaptArgs` in words. -/
def adaptArgs? (o : Overflow) (next : Reg) (typed : List ((Operand × Option Ty) × Ty)) :
    Option (List Instr × List Operand) :=
  let (casts, args) := adaptArgs next typed
  o.upTo (next + casts.length) (casts, args)
    (casts.map Instr.wrapped, args.map (Operand.mapReg wrap))

def Func.replaceInstr (f : Func) (pos : Position) (new : List Instr) : Func :=
  { f with
    body := f.body.modify pos.label fun b =>
      { b with instrs := b.instrs.take pos.index ++ new ++ b.instrs.drop (pos.index + 1) } }

namespace ModuleM

/-- Drops the cast of the callee at `site`, where `adapt` brings the arguments to the parameter
types. -/
def dropCallCastBy
    (adapt : Func → List ((Operand × Option Ty) × Ty) → Option (List Instr × List Operand))
    (site : CallSite) (callee : FuncId) : ModuleM Unit := do
  let target ← func callee
  let caller ← func site.caller
  match caller.callAt site.pos with
  | .error e => throw (.illFormed e)
  | .ok call =>
    let m ← get
    let typed := call.args.map fun op => (op, m.valueTy? caller op)
    let (casts, args) ← word (adapt caller (typed.zip (target.params.map (·.ty))))
    let direct : Call := ⟨none, target.retTy, .direct callee, args, call.conv⟩
    set (m.setFunc site.caller (caller.replaceInstr site.pos (casts ++ [.call direct])))

def dropCallCast : CallSite → FuncId → ModuleM Unit :=
  dropCallCastBy fun caller typed => some (adaptArgs caller.nextReg typed)

/-- `dropCallCast` in words. -/
def dropCallCastIn (o : Overflow) : CallSite → FuncId → ModuleM Unit :=
  dropCallCastBy fun caller typed => (caller.nextReg? o).bind fun next => adaptArgs? o next typed

section Passes

variable (drop : CallSite → FuncId → ModuleM Unit)

/-- Drops at most `bound` casts, from the first on. -/
def dropCallCastsUpTo : Nat → ModuleM Nat
  | 0 => pure 0
  | bound + 1 => do
    match (← get).findDroppableCast? with
    | none => pure 0
    | some (site, callee) =>
      drop site callee
      return (← dropCallCastsUpTo bound) + 1

/-- Drops every cast of a callee that can be dropped, and counts them.  Each time there is one call
through a cast less. -/
def dropCallCastsBy : ModuleM Nat := do dropCallCastsUpTo drop (← get).castCallCount

end Passes

def dropCallCasts : ModuleM Nat := dropCallCastsBy dropCallCast

def dropCallCastsIn (o : Overflow) : ModuleM Nat := dropCallCastsBy (dropCallCastIn o)

end ModuleM

end KernelIR
