/-!
# Value types

Types of parameters, instructions and globals.  Pointers are opaque: all that a pointer type says
is the address space it points into.
-/

namespace KernelIR

/-- A memory region, numbered as device frontends number them. -/
structure AddressSpace where
  index : Nat
  deriving DecidableEq, Inhabited

namespace AddressSpace

def privateMemory : AddressSpace := ⟨0⟩

def globalMemory : AddressSpace := ⟨1⟩

/-- The union of all regions, which a backend refuses. -/
def generic : AddressSpace := ⟨4⟩

def isGeneric (s : AddressSpace) : Bool := s == generic

def text (s : AddressSpace) : String := s!"addrspace({s.index})"

end AddressSpace

inductive FloatFormat where
  | half
  | single
  | double
  deriving DecidableEq, Inhabited

def FloatFormat.text : FloatFormat → String
  | half => "half"
  | single => "float"
  | double => "double"

/-- A value type; `void` stands for the absence of a value. -/
inductive Ty where
  | void
  | int (bits : Nat)
  | float (format : FloatFormat)
  | ptr (space : AddressSpace)
  | array (elem : Ty) (len : Nat)
  | struct (fields : List Ty)
  deriving Inhabited

namespace Ty

mutual

def decEq : (a b : Ty) → Decidable (a = b)
  | void, void => isTrue rfl
  | int m, int n => decidable_of_iff (m = n) (by simp)
  | float f, float g => decidable_of_iff (f = g) (by simp)
  | ptr s, ptr t => decidable_of_iff (s = t) (by simp)
  | array a m, array b n =>
    haveI := decEq a b
    decidable_of_iff (a = b ∧ m = n) (by simp)
  | struct as, struct bs =>
    haveI := decEqList as bs
    decidable_of_iff (as = bs) (by simp)
  | void, int _ | void, float _ | void, ptr _ | void, array _ _ | void, struct _
  | int _, void | int _, float _ | int _, ptr _ | int _, array _ _ | int _, struct _
  | float _, void | float _, int _ | float _, ptr _ | float _, array _ _ | float _, struct _
  | ptr _, void | ptr _, int _ | ptr _, float _ | ptr _, array _ _ | ptr _, struct _
  | array _ _, void | array _ _, int _ | array _ _, float _ | array _ _, ptr _
  | array _ _, struct _
  | struct _, void | struct _, int _ | struct _, float _ | struct _, ptr _
  | struct _, array _ _ => isFalse nofun

def decEqList : (as bs : List Ty) → Decidable (as = bs)
  | [], [] => isTrue rfl
  | [], _ :: _ | _ :: _, [] => isFalse nofun
  | a :: as, b :: bs =>
    haveI := decEq a b
    haveI := decEqList as bs
    decidable_of_iff (a = b ∧ as = bs) (by simp)

end

instance : DecidableEq Ty := decEq

def i1 : Ty := int 1

def i8 : Ty := int 8

def i64 : Ty := int 64

def privatePtr : Ty := ptr .privateMemory

def isVoid : Ty → Bool
  | void => true
  | _ => false

def isPointer : Ty → Bool
  | ptr _ => true
  | _ => false

def addressSpace? : Ty → Option AddressSpace
  | ptr s => some s
  | _ => none

def intWidth? : Ty → Option Nat
  | int bits => some bits
  | _ => none

mutual

/-- Private memory is the default region and is not written. -/
def text : Ty → String
  | void => "void"
  | int bits => s!"i{bits}"
  | float f => f.text
  | ptr s => if s = .privateMemory then "ptr" else s!"ptr {s.text}"
  | array elem len => s!"[{len} x {text elem}]"
  | struct fields => "\x7b " ++ ", ".intercalate (texts fields) ++ " \x7d"

def texts : List Ty → List String
  | [] => []
  | t :: ts => text t :: texts ts

end

end Ty

end KernelIR
