import KernelIR.Operand
import KernelIR.Word

/-!
# Instructions

`operands` is the one list of what an instruction reads, in the order in which it is written, and
`mapOperands` the one way to change it; `operands_mapOperands` ties them together.
-/

namespace KernelIR

inductive CallConv where
  | c
  | fast
  | cold
  | spirFunc
  | spirKernel
  | numbered (n : Nat)
  deriving DecidableEq, Inhabited

def CallConv.text : CallConv → String
  | c => "ccc"
  | fast => "fastcc"
  | cold => "coldcc"
  | spirFunc => "spir_func"
  | spirKernel => "spir_kernel"
  | numbered n => s!"cc {n}"

inductive ArithOp where
  | add
  | sub
  deriving DecidableEq, Inhabited

def ArithOp.mnemonic : ArithOp → String
  | add => "add"
  | sub => "sub"

inductive Comparison where
  | eq | ne | ugt | uge | ult | ule | sgt | sge | slt | sle
  deriving DecidableEq, Inhabited

def Comparison.text : Comparison → String
  | eq => "eq"
  | ne => "ne"
  | ugt => "ugt"
  | uge => "uge"
  | ult => "ult"
  | ule => "ule"
  | sgt => "sgt"
  | sge => "sge"
  | slt => "slt"
  | sle => "sle"

inductive CastKind where
  | bitcast
  | addrSpaceCast
  | zext
  | trunc
  deriving DecidableEq, Inhabited

def CastKind.text : CastKind → String
  | bitcast => "bitcast"
  | addrSpaceCast => "addrspacecast"
  | zext => "zext"
  | trunc => "trunc"

/-- The target of a call.  A call through `cast` has another prototype than its function. -/
inductive Callee where
  | direct (f : FuncId)
  | cast (f : FuncId)
  | indirect (target : Operand)
  deriving DecidableEq, Inhabited

namespace Callee

/-- The function that is called, with casts looked through. -/
def resolve? : Callee → Option FuncId
  | direct f => some f
  | cast f => some f
  | indirect (.func f) => some f
  | indirect _ => none

def operands : Callee → List Operand
  | indirect op => [op]
  | _ => []

def mapOperands (g : Operand → Operand) : Callee → Callee
  | indirect op => indirect (g op)
  | callee => callee

/-- Redirects a target that is named by its handle; operands are left alone. -/
def mapTarget (g : FuncId → FuncId) : Callee → Callee
  | direct f => direct (g f)
  | cast f => cast (g f)
  | indirect op => indirect op

end Callee

/-- A call; `dest` is absent when the result is discarded. -/
structure Call where
  dest : Option Reg
  ty : Ty
  callee : Callee
  args : List Operand
  conv : CallConv
  deriving DecidableEq, Inhabited

/-- A choice of a value by the block that control came from. -/
structure Phi where
  dest : Reg
  ty : Ty
  incoming : List (Label × Operand)
  deriving DecidableEq, Inhabited

structure Cast where
  dest : Reg
  kind : CastKind
  value : Operand
  ty : Ty
  deriving DecidableEq, Inhabited

def Cast.isGeneric (c : Cast) : Bool :=
  c.kind == .addrSpaceCast && c.ty.addressSpace?.any AddressSpace.isGeneric

inductive Instr where
  | arith (op : ArithOp) (dest : Reg) (ty : Ty) (lhs rhs : Operand)
  | icmp (dest : Reg) (rel : Comparison) (lhs rhs : Operand)
  | load (dest : Reg) (ty : Ty) (addr : Operand) (volatile : Bool)
  | store (addr value : Operand) (volatile : Bool)
  | gep (dest : Reg) (ty elemTy : Ty) (base : Operand) (indices : List Operand)
  | call (c : Call)
  | phi (p : Phi)
  | cast (c : Cast)
  deriving DecidableEq, Inhabited

namespace Instr

def mnemonic : Instr → String
  | arith op .. => op.mnemonic
  | icmp .. => "icmp"
  | load .. => "load"
  | store .. => "store"
  | gep .. => "getelementptr"
  | call _ => "call"
  | phi _ => "phi"
  | cast _ => "cast"

def operands : Instr → List Operand
  | arith _ _ _ lhs rhs => [lhs, rhs]
  | icmp _ _ lhs rhs => [lhs, rhs]
  | load _ _ addr _ => [addr]
  | store addr value _ => [addr, value]
  | gep _ _ _ base indices => base :: indices
  | call c => c.callee.operands ++ c.args
  | phi p => p.incoming.map (·.2)
  | cast c => [c.value]

def mapOperands (g : Operand → Operand) : Instr → Instr
  | arith op dest ty lhs rhs => arith op dest ty (g lhs) (g rhs)
  | icmp dest rel lhs rhs => icmp dest rel (g lhs) (g rhs)
  | load dest ty addr volatile => load dest ty (g addr) volatile
  | store addr value volatile => store (g addr) (g value) volatile
  | gep dest ty elemTy base indices => gep dest ty elemTy (g base) (indices.map g)
  | call c => call { c with callee := c.callee.mapOperands g, args := c.args.map g }
  | phi p => phi { p with incoming := p.incoming.map fun e => (e.1, g e.2) }
  | cast c => cast { c with value := g c.value }

def reads (i : Instr) : List Reg := i.operands.filterMap Operand.reg?

def dest? : Instr → Option Reg
  | arith _ dest .. => some dest
  | icmp dest .. => some dest
  | load dest .. => some dest
  | store .. => none
  | gep dest .. => some dest
  | call c => c.dest
  | phi p => some p.dest
  | cast c => some c.dest

/-- Renames the result; an instruction without a result stays without. -/
def mapDest (g : Reg → Reg) : Instr → Instr
  | arith op dest ty lhs rhs => arith op (g dest) ty lhs rhs
  | icmp dest rel lhs rhs => icmp (g dest) rel lhs rhs
  | load dest ty addr volatile => load (g dest) ty addr volatile
  | store addr value volatile => store addr value volatile
  | gep dest ty elemTy base indices => gep (g dest) ty elemTy base indices
  | call c => call { c with dest := c.dest.map g }
  | phi p => phi { p with dest := g p.dest }
  | cast c => cast { c with dest := g c.dest }

def destTy? : Instr → Option Ty
  | arith _ _ ty .. => some ty
  | icmp .. => some .i1
  | load _ ty .. => some ty
  | store .. => none
  | gep _ ty .. => some ty
  | call c => c.dest.map fun _ => c.ty
  | phi p => some p.ty
  | cast c => some c.ty

def phiLabels : Instr → List Label
  | phi p => p.incoming.map (·.1)
  | _ => []

def mapPhiLabels (g : Label → Label) : Instr → Instr
  | phi p => phi { p with incoming := p.incoming.map fun e => (g e.1, e.2) }
  | i => i

/-- The registers and labels as words. -/
def wrapped (i : Instr) : Instr :=
  ((i.mapDest wrap).mapOperands (Operand.mapReg wrap)).mapPhiLabels wrap

def call? : Instr → Option Call
  | call c => some c
  | _ => none

/-- Redirects every reference to a function, as a call target or as an operand. -/
def mapFuncs (g : FuncId → FuncId) (i : Instr) : Instr :=
  let redirected := match i with
    | call c => call { c with callee := c.callee.mapTarget g }
    | i => i
  redirected.mapOperands (Operand.mapFunc g)

@[simp] theorem operands_mapOperands (g : Operand → Operand) (i : Instr) :
    (i.mapOperands g).operands = i.operands.map g := by
  cases i with
  | call c => cases h : c.callee <;> simp [mapOperands, operands, Callee.operands,
      Callee.mapOperands, h]
  | _ => simp [mapOperands, operands]

@[simp] theorem mapOperands_mapOperands (f g : Operand → Operand) (i : Instr) :
    (i.mapOperands g).mapOperands f = i.mapOperands (f ∘ g) := by
  cases i with
  | call c => cases h : c.callee <;> simp [mapOperands, Callee.mapOperands, h]
  | _ => simp [mapOperands]

theorem mapOperands_congr {f g : Operand → Operand} {i : Instr}
    (h : ∀ op ∈ i.operands, f op = g op) : i.mapOperands f = i.mapOperands g := by
  cases i with
  | call c => cases hc : c.callee <;> simp_all [mapOperands, operands, Callee.operands,
      Callee.mapOperands]
  | phi p =>
    simp only [operands, List.mem_map, forall_exists_index, and_imp] at h
    simp only [mapOperands, phi.injEq, Phi.mk.injEq, true_and, List.map_inj_left, Prod.mk.injEq]
    exact fun e he => h e.2 e he rfl
  | _ => simp_all [mapOperands, operands]

@[simp] theorem dest?_mapOperands (g : Operand → Operand) (i : Instr) :
    (i.mapOperands g).dest? = i.dest? := by
  cases i <;> rfl

@[simp] theorem dest?_mapDest (g : Reg → Reg) (i : Instr) :
    (i.mapDest g).dest? = i.dest?.map g := by
  cases i <;> rfl

@[simp] theorem operands_mapDest (g : Reg → Reg) (i : Instr) :
    (i.mapDest g).operands = i.operands := by
  cases i <;> rfl

@[simp] theorem operands_mapPhiLabels (g : Label → Label) (i : Instr) :
    (i.mapPhiLabels g).operands = i.operands := by
  cases i <;> simp [mapPhiLabels, operands]

@[simp] theorem dest?_mapPhiLabels (g : Label → Label) (i : Instr) :
    (i.mapPhiLabels g).dest? = i.dest? := by
  cases i <;> rfl

@[simp] theorem phiLabels_mapOperands (g : Operand → Operand) (i : Instr) :
    (i.mapOperands g).phiLabels = i.phiLabels := by
  cases i <;> simp [mapOperands, phiLabels]

@[simp] theorem phiLabels_mapPhiLabels (g : Label → Label) (i : Instr) :
    (i.mapPhiLabels g).phiLabels = i.phiLabels.map g := by
  cases i <;> simp [mapPhiLabels, phiLabels]

end Instr

end KernelIR
