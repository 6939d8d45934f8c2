import KernelIR.Config
import KernelIR.Toml.Document

/-!
# Reading a configuration

A configuration is a TOML document.  Keys that are missing keep their defaults and keys that mean
nothing are passed over; a key that means something has to hold a value of its type.
-/

namespace KernelIR

open Toml (Value Table)

/-- A name, or a table with one key: the name and what it carries.  A name that carries nothing may
carry an empty array or table. -/
def Toml.Value.tag? : Value → Option (String × Option Value)
  | .string name => some (name, none)
  | .table _ [(name, payload)] => some (name, some payload)
  | _ => none

def Toml.Value.isNothing : Option Value → Bool
  | none => true
  | some (.array _ []) => true
  | some (.table _ []) => true
  | _ => false

def Toml.Value.bool? : Value → Option Bool
  | .boolean b => some b
  | _ => none

def Flow.ofValue? (v : Value) : Option Flow :=
  v.tag?.bind fun (name, payload) =>
    if !Value.isNothing payload then none
    else if name = "spir" then some spir
    else if name = "hls" then some hls
    else none

namespace CallConv

def ofName? (name : String) : Option CallConv :=
  [("C", c), ("FastC", fast), ("ColdC", cold), ("SpirFunc", spirFunc),
    ("SpirKernel", spirKernel)].lookup name

def ofValue? (v : Value) : Option CallConv :=
  v.tag?.bind fun (name, payload) =>
    match name, payload with
    | "Numbered", some (.integer n) =>
      if 0 ≤ n ∧ n < UInt32.size then some (numbered n.toNat) else none
    | _, _ => if Value.isNothing payload then ofName? name else none

end CallConv

namespace Config

def read? {α : Type} (t : Table) (key : String) (default : α) (ofValue : Value → Option α) :
    Option α :=
  match t.find? key with
  | none => some default
  | some v => ofValue v

def ofTable? (t : Table) : Option Config := do
  let defaults : Config := {}
  return {
    flow := ← read? t "flow" defaults.flow fun v => (Flow.ofValue? v).map some
    afterO3 := ← read? t "after_o3" defaults.afterO3 Value.bool?
    runPreparation := ← read? t "run_preparation" defaults.runPreparation Value.bool?
    setTriple := ← read? t "set_target_triple" defaults.setTriple Value.bool?
    uniformConv := ← read? t "uniform_calling_convention" defaults.uniformConv
      fun v => (CallConv.ofValue? v).map some }

/-- The configuration that a document holds, if the document is well formed and its values have the
right types. -/
def ofToml? (source : String) : Option Config := (Toml.parse? source).bind ofTable?

end Config

end KernelIR
