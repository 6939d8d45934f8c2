import KernelIR.Attributes
import KernelIR.Error
import KernelIR.Instr
import KernelIR.Metadata
import KernelIR.Terminator

/-!
# Functions

A function is a header and a body of labelled blocks; one without blocks declares a symbol that is
defined elsewhere.
-/

namespace KernelIR

inductive Linkage where
  | privateSymbol
  | internal
  | external
  | linkOnceODR
  deriving DecidableEq

instance : Inhabited Linkage := ⟨.external⟩

def Linkage.text : Linkage → String
  | privateSymbol => "private"
  | internal => "internal"
  | external => "external"
  | linkOnceODR => "linkonce_odr"

structure Param where
  name : Option String
  ty : Ty
  deriving DecidableEq, Inhabited

/-- An empty name counts as no name. -/
def Param.hasName (p : Param) : Bool := p.name.any fun n => !n.isEmpty

structure Block where
  instrs : List Instr
  terminator : Terminator
  deriving DecidableEq, Inhabited

namespace Block

def operands (b : Block) : List Operand :=
  b.instrs.flatMap Instr.operands ++ b.terminator.operands

def mapOperands (g : Operand → Operand) (b : Block) : Block where
  instrs := b.instrs.map (Instr.mapOperands g)
  terminator := b.terminator.mapOperands g

def reads (b : Block) : List Reg := b.operands.filterMap Operand.reg?

def dests (b : Block) : List Reg := b.instrs.filterMap Instr.dest?

def phiLabels (b : Block) : List Label := b.instrs.flatMap Instr.phiLabels

def mapPhiLabels (g : Label → Label) (b : Block) : Block :=
  { b with instrs := b.instrs.map (Instr.mapPhiLabels g) }

def wrapped (b : Block) : Block where
  instrs := b.instrs.map Instr.wrapped
  terminator := (b.terminator.mapOperands (Operand.mapReg wrap)).mapTargets wrap

def mapFuncs (g : FuncId → FuncId) (b : Block) : Block where
  instrs := b.instrs.map (Instr.mapFuncs g)
  terminator := b.terminator.mapOperands (Operand.mapFunc g)

@[simp] theorem operands_mapOperands (g : Operand → Operand) (b : Block) :
    (b.mapOperands g).operands = b.operands.map g := by
  simp [mapOperands, operands, List.flatMap_map, List.map_flatMap]

@[simp] theorem dests_mapOperands (g : Operand → Operand) (b : Block) :
    (b.mapOperands g).dests = b.dests := by
  have h : Instr.dest? ∘ Instr.mapOperands g = Instr.dest? := funext (Instr.dest?_mapOperands g)
  rw [dests, dests, mapOperands, List.filterMap_map, h]

end Block

structure Func where
  name : String
  params : List Param
  retTy : Ty
  body : OrderedMap Label Block := .empty
  linkage : Linkage := .external
  conv : CallConv := .c
  comdat : Option String := none
  attributes : Attributes := {}
  metadata : OrderedMap String MetadataNode := .empty
  deriving DecidableEq, Inhabited

namespace Func

def isDeclaration (f : Func) : Bool := f.body.isEmpty

/-- The backend provides the functions of this name space itself. -/
def isIntrinsic (f : Func) : Bool := f.name.startsWith "llvm."

/-- The result and parameter types agree; names do not matter. -/
def samePrototype (f g : Func) : Bool :=
  f.retTy == g.retTy && f.params.map (·.ty) == g.params.map (·.ty)

def mapBlocks (g : Block → Block) (f : Func) : Func := { f with body := f.body.map g }

def instrs (f : Func) : List (Position × Instr) :=
  f.body.entries.flatMap fun (label, b) => b.instrs.zipIdx.map fun (i, n) => (⟨label, n⟩, i)

def calls (f : Func) : List (Position × Call) :=
  f.instrs.filterMap fun (pos, i) => i.call?.map (pos, ·)

def dests (f : Func) : List Reg := f.body.values.flatMap Block.dests

def reads (f : Func) : List Reg := f.body.values.flatMap Block.reads

/-- The least register above all that the body defines or reads. -/
def nextReg (f : Func) : Reg :=
  (f.dests ++ f.reads).foldl (fun n r => max n (r + 1)) 0

/-- The least label above all labels of the body. -/
def nextLabel (f : Func) : Label :=
  match f.body.lastKey? with
  | some label => label + 1
  | none => Label.entry

/-- `nextReg` in words: each register is counted up before the greatest is taken. -/
def nextReg? (o : Overflow) (f : Func) : Option Reg :=
  (f.dests ++ f.reads).foldlM (fun n r => (o.word? (r + 1)).map (max n)) 0

/-- `nextLabel` in words. -/
def nextLabel? (o : Overflow) (f : Func) : Option Label :=
  match f.body.lastKey? with
  | some label => o.word? (label + 1)
  | none => some Label.entry

def instr? (f : Func) (pos : Position) : Option Instr :=
  (f.body.find? pos.label).bind fun b => b.instrs[pos.index]?

def callAt (f : Func) (pos : Position) : Except IRError Call :=
  match f.instr? pos with
  | some (.call c) => .ok c
  | some _ => .error (.notACall f.name pos)
  | none => .error (.undefinedInstr f.name pos)

def findDef? (f : Func) (r : Reg) : Option (Position × Instr) :=
  f.instrs.find? fun e => e.2.dest? == some r

/-- The type of an operand as the function alone knows it: not that of a global. -/
def valueTy? (f : Func) : Operand → Option Ty
  | .reg r => (f.findDef? r).bind fun e => e.2.destTy?
  | .arg index => f.params[index]?.map (·.ty)
  | .imm c => some c.ty
  | .func _ => some .privatePtr
  | .global _ | .undefined => none

def readCount (f : Func) (r : Reg) : Nat := f.reads.count r

end Func

end KernelIR
