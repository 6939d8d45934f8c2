import KernelIR.IntConst

/-!
# Metadata

Records attached to functions and modules, compared by content.
-/

namespace KernelIR

inductive Metadata where
  | int (const : IntConst)
  | string (value : String)
  | node (operands : List Metadata)
  deriving Inhabited

namespace Metadata

mutual

def decEq : (a b : Metadata) → Decidable (a = b)
  | int c, int d => decidable_of_iff (c = d) (by simp)
  | string s, string t => decidable_of_iff (s = t) (by simp)
  | node as, node bs =>
    haveI := decEqList as bs
    decidable_of_iff (as = bs) (by simp)
  | int _, string _ | int _, node _ | string _, int _ | string _, node _
  | node _, int _ | node _, string _ => isFalse nofun

def decEqList : (as bs : List Metadata) → Decidable (as = bs)
  | [], [] => isTrue rfl
  | [], _ :: _ | _ :: _, [] => isFalse nofun
  | a :: as, b :: bs =>
    haveI := decEq a b
    haveI := decEqList as bs
    decidable_of_iff (a = b ∧ as = bs) (by simp)

end

instance : DecidableEq Metadata := decEq

mutual

/-- Strings are written as they are, without escapes. -/
def text : Metadata → String
  | int c => c.text
  | string s => s!"!\"{s}\""
  | node operands => "!\x7b" ++ ", ".intercalate (texts operands) ++ "\x7d"

def texts : List Metadata → List String
  | [] => []
  | m :: ms => text m :: texts ms

end

end Metadata

/-- A tuple of metadata, the form in which metadata is attached. -/
structure MetadataNode where
  operands : List Metadata
  deriving DecidableEq, Inhabited

namespace MetadataNode

def ofNats (values : List Nat) : MetadataNode :=
  ⟨values.map fun v => .int (.i32 v)⟩

def ints? (n : MetadataNode) : Option (List Nat) :=
  n.operands.mapM fun
    | .int c => some c.value
    | _ => none

def text (n : MetadataNode) : String := (Metadata.node n.operands).text

end MetadataNode

end KernelIR
