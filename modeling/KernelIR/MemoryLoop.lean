import KernelIR.ModuleM

/-!
# Memory intrinsics as loops

Calls that copy, move or fill memory become loops over bytes.  A guard in front skips the loop when
the length is zero.  A move compares the two pointers first, and runs from the last byte down when
the source lies below the destination, so that overlapping ranges are moved correctly.
-/

namespace KernelIR

inductive MemIntrinsic where
  | copy
  | move
  | set
  deriving DecidableEq, Inhabited

namespace MemIntrinsic

/-- What the names of the intrinsics of a kind start with. -/
def stem : MemIntrinsic → String
  | copy => "llvm.memcpy."
  | move => "llvm.memmove."
  | set => "llvm.memset."

def ofName? (name : String) : Option MemIntrinsic :=
  if name.startsWith copy.stem then some copy
  else if name.startsWith move.stem then some move
  else if name.startsWith set.stem then some set
  else none

/-- The registers of a loop over bytes. -/
def loopRegs : MemIntrinsic → Nat
  | copy | move => 6
  | set => 4

/-- The registers that take the place of a call, that of the guard included. -/
def regCount : MemIntrinsic → Nat
  | copy => 1 + copy.loopRegs
  | move => 2 + 2 * move.loopRegs
  | set => 1 + set.loopRegs

/-- The blocks between the two halves of the block of a call. -/
def blockCount : MemIntrinsic → Nat
  | copy | set => 1
  | move => 3

end MemIntrinsic

/-- The arguments of a call to a memory intrinsic with their types.  `source` is the byte to write
when memory is filled. -/
structure MemCall where
  kind : MemIntrinsic
  dst : Operand
  source : Operand
  len : Operand
  volatile : Bool
  dstTy : Ty
  sourceTy : Ty
  lenTy : Ty
  deriving DecidableEq, Inhabited

namespace MemCall

/-- A constant of the type of the length; undefined if the type is no integer type of that range. -/
def const (c : MemCall) (value : Nat) : Operand :=
  match IntConst.ofNat? (c.lenTy.intWidth?.getD 64) value with
  | some k => .imm k
  | none => .undefined

/-- Writes the byte at offset `index`, with registers from `base` on. -/
def transferByte (c : MemCall) (base : Reg) (index : Operand) : List Instr :=
  let store (value : Operand) : List Instr :=
    [.gep base c.dstTy .i8 c.dst [index], .store (.reg base) value c.volatile]
  match c.kind with
  | .set => store c.source
  | .copy | .move =>
    .gep (base + 1) c.sourceTy .i8 c.source [index] ::
      .load (base + 2) .i8 (.reg (base + 1)) c.volatile :: store (.reg (base + 2))

/-- The offset counts from zero up to the length; the block is entered from `pred`. -/
def forwardLoop (c : MemCall) (base : Reg) (label pred exit : Label) : Block where
  instrs :=
    .phi ⟨base, c.lenTy, [(pred, c.const 0), (label, .reg (base + 1))]⟩ ::
      c.transferByte (base + 3) (.reg base) ++
        [.arith .add (base + 1) c.lenTy (.reg base) (c.const 1),
          .icmp (base + 2) .ult (.reg (base + 1)) c.len]
  terminator := .branch (.reg (base + 2)) label exit

/-- The offset counts from the last byte down to zero; the block is entered from `pred`. -/
def backwardLoop (c : MemCall) (base : Reg) (label pred exit : Label) : Block where
  instrs :=
    .phi ⟨base, c.lenTy, [(pred, c.len), (label, .reg (base + 1))]⟩ ::
      .arith .sub (base + 1) c.lenTy (.reg base) (c.const 1) ::
        c.transferByte (base + 3) (.reg (base + 1)) ++
          [.icmp (base + 2) .ne (.reg (base + 1)) (c.const 0)]
  terminator := .branch (.reg (base + 2)) label exit

/-- Goes to `backward` when the source lies below the destination, else to `forward`. -/
def direction (c : MemCall) (r : Reg) (backward forward : Label) : Block where
  instrs := [.icmp r .ult c.source c.dst]
  terminator := .branch (.reg r) backward forward

/-- The blocks between `header` and `exit`, with registers from `base` and labels from `first` on.
Control enters at `first`. -/
def blocks (c : MemCall) (base : Reg) (header first exit : Label) : List (Label × Block) :=
  match c.kind with
  | .copy | .set => [(first, c.forwardLoop base first header exit)]
  | .move =>
    [(first, c.direction base (first + 1) (first + 2)),
      (first + 1, c.backwardLoop (base + 1) (first + 1) first exit),
      (first + 2, c.forwardLoop (base + 7) (first + 2) first exit)]

/-- `blocks` in words, behind the register of the guard. -/
def blocks? (c : MemCall) (o : Overflow) (guard : Reg) (header first exit : Label) :
    Option (List (Label × Block)) :=
  let exact := c.blocks (guard + 1) header first exit
  o.upTo (max (guard + c.kind.regCount) (first + c.kind.blockCount - 1)) exact
    (exact.map fun (label, b) => (wrap label, b.wrapped))

/-- Ends the block `header` with the test for an empty range. -/
def guardHeader (c : MemCall) (r : Reg) (first exit : Label) (b : Block) : Block where
  instrs := b.instrs ++ [.icmp r .eq c.len (c.const 0)]
  terminator := .branch (.reg r) exit first

/-- Puts the guard at the end of `header`, in front of the blocks of the loop. -/
def install (c : MemCall) (f : Func) (guard : Reg) (header first exit : Label)
    (blocks : List (Label × Block)) : Func :=
  let body := f.body.modify header (c.guardHeader guard first exit)
  { f with body := blocks.foldl (fun body e => body.insert e.1 e.2) body }

def expand (c : MemCall) (f : Func) (pos : Position) : Except IRError Func :=
  match f.splitBlock pos.label (pos.index + 1) with
  | .error e => .error e
  | .ok (exit, split) =>
    match split.removeInstr pos with
    | .error e => .error e
    | .ok (_, opened) =>
      let base := opened.nextReg
      let first := opened.nextLabel
      .ok (c.install opened base pos.label first exit
        (c.blocks (base + 1) pos.label first exit))

end MemCall

namespace Module

/-- The arguments of a call in `f`; there have to be three at least.  A fourth that is a constant
other than zero makes the accesses volatile. -/
def memCall? (m : Module) (f : Func) (kind : MemIntrinsic) (call : Call) : Option MemCall :=
  match call.args with
  | dst :: source :: len :: rest =>
    some {
      kind, dst, source, len
      volatile := match rest with
        | .imm c :: _ => c.value != 0
        | _ => false
      dstTy := (m.valueTy? f dst).getD .privatePtr
      sourceTy := (m.valueTy? f source).getD .privatePtr
      lenTy := (m.valueTy? f len).getD .i64 }
  | _ => none

/-- The name of the function that is called, empty if it is not known. -/
def calleeName (m : Module) (call : Call) : String :=
  match call.callee.resolve?.bind m.funcs.get? with
  | some f => f.name
  | none => ""

def expandMemCall (m : Module) (site : CallSite) (kind : MemIntrinsic) :
    Except Failure Module :=
  match m.funcs.get? site.caller with
  | none => .error (.deadHandle site.caller)
  | some f =>
    match f.callAt site.pos with
    | .error e => .error (.illFormed e)
    | .ok call =>
      match m.memCall? f kind call with
      | none => .error (.unsupported (m.calleeName call) f.name)
      | some c =>
        match c.expand f site.pos with
        | .error e => .error (.illFormed e)
        | .ok f' => .ok (m.setFunc site.caller f')

def memIntrinsic? (m : Module) (call : Call) : Option MemIntrinsic :=
  ((call.callee.resolve?.bind m.funcs.get?).map (·.name)).bind MemIntrinsic.ofName?

def memCalls (m : Module) (id : FuncId) : List (Position × MemIntrinsic) :=
  match m.funcs.get? id with
  | none => []
  | some f => f.calls.filterMap fun (pos, call) => (m.memIntrinsic? call).map (pos, ·)

end Module

namespace ModuleM

def expandMemCall (site : CallSite) (kind : MemIntrinsic) : ModuleM Unit :=
  edit fun m => (m.expandMemCall site kind).map fun m' => ((), m')

/-- `expandMemCall` in words.  The block is split and the call removed before the registers of the
loop are counted, and both stay when there are no words left for these. -/
def expandMemCallIn (o : Overflow) (site : CallSite) (kind : MemIntrinsic) : ModuleM Unit := do
  let f ← func site.caller
  let m ← get
  let call ← ofExcept (f.callAt site.pos)
  match m.memCall? f kind call with
  | none => throw (.unsupported (m.calleeName call) f.name)
  | some c =>
    let fresh ← word (f.nextLabel? o)
    let (exit, split) ← ofExcept (f.splitBlockAt fresh site.pos.label (site.pos.index + 1))
    set (m.setFunc site.caller split)
    let (_, opened) ← ofExcept (split.removeInstr site.pos)
    set (m.setFunc site.caller opened)
    let guard ← word (opened.nextReg? o)
    let first ← word (opened.nextLabel? o)
    let blocks ← word (c.blocks? o guard site.pos.label first exit)
    set (m.setFunc site.caller (c.install opened guard site.pos.label first exit blocks))

end ModuleM

section Passes

variable (expand : CallSite → MemIntrinsic → ModuleM Unit)

/-- Expands at most `bound` calls of a function, from the first on. -/
def expandMemCallsOf (id : FuncId) : Nat → ModuleM Nat
  | 0 => pure 0
  | bound + 1 => do
    match (← get).memCalls id with
    | [] => pure 0
    | (pos, kind) :: _ =>
      expand ⟨id, pos⟩ kind
      return (← expandMemCallsOf id bound) + 1

/-- Expands every call to a memory intrinsic and answers how many there were.  A loop has no calls,
so that the calls of a function at the start bound the work on it. -/
def expandMemCallsBy : ModuleM Nat := do
  ModuleM.sumOver (← get).funcs.ids fun id => do
    expandMemCallsOf expand id ((← get).memCalls id).length

end Passes

def expandMemCalls : ModuleM Nat := expandMemCallsBy ModuleM.expandMemCall

def expandMemCallsIn (o : Overflow) : ModuleM Nat := expandMemCallsBy (ModuleM.expandMemCallIn o)

end KernelIR
