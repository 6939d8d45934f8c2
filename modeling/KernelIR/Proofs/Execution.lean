import KernelIR.Module.Refs
import Mathlib

/-!
# Running a module

Each activation has registers and arguments of its own, and all share one memory.  An edge to a
block and the phis of that block are one step, so that the phis are chosen in parallel.  A call
of a function with a body runs the body in a new activation; all other calls leave the module.
-/

namespace KernelIR

/-- What an instruction computes from the values that it reads. -/
inductive Op where
  | arith (op : ArithOp) (ty : Ty)
  | icmp (rel : Comparison)
  | load (ty : Ty) (volatile : Bool)
  | store (volatile : Bool)
  | gep (ty elemTy : Ty)
  | cast (kind : CastKind) (ty : Ty)
  deriving DecidableEq

namespace Instr

/-- Calls and phis are no computations. -/
def op? : Instr → Option Op
  | arith op _ ty .. => some (.arith op ty)
  | icmp _ rel .. => some (.icmp rel)
  | load _ ty _ volatile => some (.load ty volatile)
  | store _ _ volatile => some (.store volatile)
  | gep _ ty elemTy .. => some (.gep ty elemTy)
  | call _ | phi _ => none
  | cast c => some (.cast c.kind c.ty)

@[simp] theorem op?_mapOperands (g : Operand → Operand) (i : Instr) :
    (i.mapOperands g).op? = i.op? := by
  cases i <;> rfl

end Instr

def Callee.target : Callee → Operand
  | direct f | cast f => .func f
  | indirect op => op

/-- The values, the memory and the computations of a machine.  What a call out of the module
depends on counts as memory. -/
structure Machine where
  Value : Type
  Memory : Type
  undefined : Value
  imm : IntConst → Value
  func : FuncId → Value
  global : GlobalId → Value
  funcAt? : Value → Option FuncId
  funcAt?_func : ∀ f, funcAt? (func f) = some f
  truth? : Value → Option Bool
  compute : Op → List Value → Memory → Option (Value × Memory)
  external : Value → List Value → Memory → Option (Value × Memory)

variable {M : Machine}

/-- What is read of a register without a value, or of a missing argument, is undefined. -/
def Machine.eval (M : Machine) (args : List M.Value) (regs : Reg → M.Value) : Operand → M.Value
  | .reg r => regs r
  | .arg index => args[index]?.getD M.undefined
  | .imm c => M.imm c
  | .func f => M.func f
  | .global g => M.global g
  | .undefined => M.undefined

structure Event (M : Machine) where
  target : M.Value
  args : List M.Value

/-- What the end of an instruction or of a block asks for. -/
inductive Action (M : Machine) where
  | set (value : M.Value) (mem : M.Memory)
  | goto (l : Label)
  | call (e : Event M)
  | ret (value : Option M.Value)

def Action.mapLabel (g : Label → Label) : Action M → Action M
  | goto l => goto (g l)
  | a => a

def Instr.act (i : Instr) (eval : Operand → M.Value) (mem : M.Memory) : Option (Action M) :=
  match i with
  | .call c => some (.call ⟨eval c.callee.target, c.args.map eval⟩)
  | i => i.op?.bind fun op =>
      (M.compute op (i.operands.map eval) mem).map fun r => .set r.1 r.2

def Terminator.act (t : Terminator) (eval : Operand → M.Value) : Option (Action M) :=
  match t with
  | .jump l => some (.goto l)
  | .branch c l l' => (M.truth? (eval c)).map fun b => .goto (if b then l else l')
  | .ret value => some (.ret (value.map eval))
  | .unreachable => none

def leadingPhis : List Instr → List Phi
  | .phi p :: is => p :: leadingPhis is
  | _ => []

structure Frame (M : Machine) where
  func : FuncId
  args : List M.Value
  regs : Reg → M.Value
  pos : Position

namespace Frame

def start (id : FuncId) (args : List M.Value) : Frame M :=
  ⟨id, args, fun _ => M.undefined, ⟨.entry, 0⟩⟩

def eval (F : Frame M) : Operand → M.Value := M.eval F.args F.regs

def act (F : Frame M) (f : Func) (mem : M.Memory) : Option (Action M) :=
  (f.body.find? F.pos.label).bind fun b =>
    match b.instrs[F.pos.index]? with
    | some i => i.act F.eval mem
    | none => b.terminator.act F.eval

/-- The instruction at hand is done, and `v` is its result. -/
def finish (F : Frame M) (f : Func) (v : M.Value) : Frame M :=
  { F with
    regs := match (f.instr? F.pos).bind Instr.dest? with
      | some r => Function.update F.regs r v
      | none => F.regs
    pos := ⟨F.pos.label, F.pos.index + 1⟩ }

/-- The values that `phis` choose on an edge from the block of `F`. -/
def choose (F : Frame M) (phis : List Phi) : List (Reg × M.Value) :=
  phis.map fun p => (p.dest, F.eval ((p.incoming.lookup F.pos.label).getD .undefined))

def enter (F : Frame M) (f : Func) (l : Label) : Option (Frame M) :=
  (f.body.find? l).map fun b =>
    { F with
      regs := fun r => ((F.choose (leadingPhis b.instrs)).lookup r).getD (F.regs r)
      pos := ⟨l, (leadingPhis b.instrs).length⟩ }

theorem enter_eq (F : Frame M) {f : Func} {l : Label} {b : Block} (hb : f.body.find? l = some b) :
    F.enter f l = some { F with
      regs := fun r => ((F.choose (leadingPhis b.instrs)).lookup r).getD (F.regs r)
      pos := ⟨l, (leadingPhis b.instrs).length⟩ } := by
  rw [enter, hb]
  rfl

end Frame

/-- A point of a run: the activations, the innermost first, the memory, and the calls so far. -/
inductive State (M : Machine) where
  | running (top : Frame M) (outer : List (Frame M)) (mem : M.Memory) (trace : List (Event M))
  | done (value : Option M.Value) (mem : M.Memory) (trace : List (Event M))

namespace Module

/-- The function with a body that a value is the address of. -/
def bodyAt? (m : Module) (v : M.Value) : Option FuncId :=
  (M.funcAt? v).filter fun id => (m.funcs.get? id).any fun f => !f.isDeclaration

/-- The innermost activation gets the value that it waits for. -/
def resume (m : Module) (value : Option M.Value) (mem : M.Memory) (trace : List (Event M)) :
    List (Frame M) → Option (State M)
  | [] => some (.done value mem trace)
  | F :: outer => (m.funcs.get? F.func).map fun f =>
      .running (F.finish f (value.getD M.undefined)) outer mem trace

def invoke (m : Module) (e : Event M) (mem : M.Memory) (trace : List (Event M))
    (frames : List (Frame M)) : Option (State M) :=
  match m.bodyAt? e.target with
  | some id => some (.running (.start id e.args) frames mem trace)
  | none => (M.external e.target e.args mem).bind fun r => m.resume (some r.1) r.2 trace frames

/-- One step.  A call is traced unless its site is `silent`. -/
def next (m : Module) (silent : CallSite → Bool) : State M → Option (State M)
  | .done .. => none
  | .running F outer mem trace =>
      (m.funcs.get? F.func).bind fun f =>
        (F.act f mem).bind fun
          | .set v mem' => m.resume (some v) mem' trace (F :: outer)
          | .goto l => (F.enter f l).map fun F' => .running F' outer mem trace
          | .call e =>
              m.invoke e mem (if silent ⟨F.func, F.pos⟩ then trace else trace ++ [e]) (F :: outer)
          | .ret v => m.resume v mem trace outer

/-- A call of `id` returns `value` and leaves `mem'` behind, having made the calls `trace`. -/
def Ends (m : Module) (silent : CallSite → Bool) (id : FuncId) (args : List M.Value)
    (mem : M.Memory) (value : Option M.Value) (mem' : M.Memory) (trace : List (Event M)) : Prop :=
  Relation.ReflTransGen (fun s t => m.next silent s = some t) (.running (.start id args) [] mem [])
    (.done value mem' trace)

end Module

end KernelIR
