import KernelIR.Proofs.Execution
import Mathlib

/-!
# A machine with bytes

Values are words of some width, addresses are words of 64 bits, and the memory holds a byte at
each address.  Offsets are unsigned and count bytes.
-/

namespace KernelIR

inductive Word where
  | undefined
  | bits (width value : Nat)
  | func (f : FuncId)
  deriving DecidableEq

abbrev Bytes := Nat → UInt8

namespace Word

/-- The value of a word in two's complement. -/
def signed (width value : Nat) : Int :=
  if 2 * value < 2 ^ width then value else (value : Int) - 2 ^ width

def holds (rel : Comparison) (width a b : Nat) : Bool :=
  match rel with
  | .eq => a = b
  | .ne => a ≠ b
  | .ugt => b < a
  | .uge => b ≤ a
  | .ult => a < b
  | .ule => a ≤ b
  | .sgt => signed width b < signed width a
  | .sge => signed width b ≤ signed width a
  | .slt => signed width a < signed width b
  | .sle => signed width a ≤ signed width b

def ofBool (b : Bool) : Word := .bits 1 b.toNat

def arith (op : ArithOp) (width a b : Nat) : Word :=
  match op with
  | .add => .bits width ((a + b) % 2 ^ width)
  | .sub => .bits width ((a + (2 ^ width - b)) % 2 ^ width)

def cast (kind : CastKind) (ty : Ty) (w : Word) : Option Word :=
  match kind, ty, w with
  | .trunc, .int width, .bits _ a => some (.bits width (a % 2 ^ width))
  | .zext, .int width, .bits _ a => some (.bits width a)
  | .bitcast, _, w | .addrSpaceCast, _, w => some w
  | _, _, _ => none

def compute (op : Op) (ws : List Word) (mem : Bytes) : Option (Word × Bytes) :=
  match op, ws with
  | .arith op (.int width), [.bits v a, .bits v' b] =>
      if v = width ∧ v' = width then some (arith op width a b, mem) else none
  | .icmp rel, [.bits v a, .bits v' b] =>
      if v = v' then some (ofBool (holds rel v a b), mem) else none
  | .load (.int width) _, [.bits v a] =>
      if width = 8 ∧ v = 64 then some (.bits 8 (mem a).toNat, mem) else none
  | .store _, [.bits v a, .bits v' x] =>
      if v = 64 ∧ v' = 8 then some (.undefined, Function.update mem a (UInt8.ofNat x)) else none
  | .gep _ (.int width), [.bits v a, .bits _ i] =>
      if width = 8 ∧ v = 64 then some (.bits 64 ((a + i) % 2 ^ 64), mem) else none
  | .cast kind ty, [w] => (cast kind ty w).map (·, mem)
  | _, _ => none

theorem compute_add {width a b : Nat} (h : a + b < 2 ^ width) (mem : Bytes) :
    compute (.arith .add (.int width)) [.bits width a, .bits width b] mem =
      some (.bits width (a + b), mem) := by
  simp only [compute, arith, and_self, if_true]
  rw [Nat.mod_eq_of_lt h]

theorem compute_sub {width a b : Nat} (hb : b ≤ a) (ha : a < 2 ^ width) (mem : Bytes) :
    compute (.arith .sub (.int width)) [.bits width a, .bits width b] mem =
      some (.bits width (a - b), mem) := by
  have hsum : a + (2 ^ width - b) = a - b + 2 ^ width := by omega
  have hlt : a - b < 2 ^ width := by omega
  simp only [compute, arith, and_self, if_true]
  rw [hsum, Nat.add_mod_right, Nat.mod_eq_of_lt hlt]

theorem compute_icmp (rel : Comparison) (width a b : Nat) (mem : Bytes) :
    compute (.icmp rel) [.bits width a, .bits width b] mem =
      some (ofBool (holds rel width a b), mem) := by
  simp only [compute, if_true]

theorem compute_load (volatile : Bool) (a : Nat) (mem : Bytes) :
    compute (.load .i8 volatile) [.bits 64 a] mem = some (.bits 8 (mem a).toNat, mem) := rfl

theorem compute_store (volatile : Bool) (a x : Nat) (mem : Bytes) :
    compute (.store volatile) [.bits 64 a, .bits 8 x] mem =
      some (.undefined, Function.update mem a (UInt8.ofNat x)) := rfl

theorem compute_gep (ty : Ty) {a i : Nat} (h : a + i < 2 ^ 64) (width : Nat) (mem : Bytes) :
    compute (.gep ty .i8) [.bits 64 a, .bits width i] mem = some (.bits 64 (a + i), mem) := by
  simp only [compute, Ty.i8, and_self, if_true]
  rw [Nat.mod_eq_of_lt h]

def truth? : Word → Option Bool
  | bits width value => if width = 1 then some (value ≠ 0) else none
  | _ => none

@[simp] theorem truth?_ofBool (b : Bool) : truth? (ofBool b) = some b := by
  cases b <;> rfl

end Word

/-- A constant that exceeds its width is cut. -/
def byteMachine (address : GlobalId → Nat)
    (external : Word → List Word → Bytes → Option (Word × Bytes)) : Machine where
  Value := Word
  Memory := Bytes
  undefined := .undefined
  imm c := .bits c.bits (c.value % 2 ^ c.bits)
  func := .func
  global g := .bits 64 (address g)
  funcAt?
    | .func f => some f
    | _ => none
  funcAt?_func _ := rfl
  truth? := Word.truth?
  compute := Word.compute
  external := external

end KernelIR
