import KernelIR.Func.Check
import KernelIR.Func.Edit

/-!
# Modules

A module owns its functions and globals in two arenas; everything else refers to them by handle.
Functions and globals share one space of symbol names.
-/

namespace KernelIR

inductive Initializer where
  | zero
  | int (const : IntConst)
  | bytes (data : List UInt8)
  | functions (list : List FuncId)
  deriving DecidableEq, Inhabited

/-- A global variable; one without initializer is a declaration. -/
structure Global where
  name : String
  ty : Ty
  space : AddressSpace := .globalMemory
  linkage : Linkage := .external
  comdat : Option String := none
  init : Option Initializer := none
  deriving DecidableEq, Inhabited

def Global.isDeclaration (g : Global) : Bool := g.init.isNone

structure Module where
  name : String := ""
  triple : Option String := none
  funcs : Arena .function Func := .empty
  globals : Arena .global Global := .empty
  named : OrderedMap String (List MetadataNode) := .empty
  deriving DecidableEq, Inhabited

namespace Module

def symbols (m : Module) : List String :=
  m.funcs.values.map (·.name) ++ m.globals.values.map (·.name)

def findFunc? (m : Module) (name : String) : Option FuncId :=
  m.funcs.findId? fun f => f.name == name

def findGlobal? (m : Module) (name : String) : Option GlobalId :=
  m.globals.findId? fun g => g.name == name

def isTaken (m : Module) (name : String) : Bool :=
  (m.findFunc? name).isSome || (m.findGlobal? name).isSome

def addFunc (m : Module) (f : Func) : Except IRError (FuncId × Module) :=
  if m.isTaken f.name then .error (.duplicateSymbol f.name)
  else
    let (id, funcs) := m.funcs.insert f
    .ok (id, { m with funcs })

def addGlobal (m : Module) (g : Global) : Except IRError (GlobalId × Module) :=
  if m.isTaken g.name then .error (.duplicateSymbol g.name)
  else
    let (id, globals) := m.globals.insert g
    .ok (id, { m with globals })

def modifyFunc (m : Module) (id : FuncId) (g : Func → Func) : Module :=
  { m with funcs := m.funcs.modify id g }

def setFunc (m : Module) (id : FuncId) (f : Func) : Module :=
  { m with funcs := m.funcs.set id f }

def mapFuncs (m : Module) (g : Func → Func) : Module := { m with funcs := m.funcs.map g }

/-- Calls refer to the function by its handle, so that no call changes. -/
def renameFunc (m : Module) (id : FuncId) (name : String) : Except IRError Module :=
  match m.funcs.get? id with
  | none => .error (.undefinedFunction name)
  | some f =>
    if f.name = name then .ok m
    else if m.isTaken name then .error (.duplicateSymbol name)
    else .ok (m.modifyFunc id fun f => { f with name })

/-- The type of an operand of `f`; a global has the type of a pointer to it. -/
def valueTy? (m : Module) (f : Func) : Operand → Option Ty
  | .global g => (m.globals.get? g).map fun v => .ptr v.space
  | op => f.valueTy? op

def addNamed (m : Module) (key : String) (node : MetadataNode) : Module :=
  { m with named := m.named.insert key ((m.named.find? key).getD [] ++ [node]) }

def namedNodes (m : Module) (key : String) : List MetadataNode := (m.named.find? key).getD []

def eraseNamed (m : Module) (key : String) : Module := { m with named := m.named.erase key }

end Module

end KernelIR
