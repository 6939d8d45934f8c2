import KernelIR.Ty

/-!
# Integer constants

A value together with the width it is written in.  A constant that is read from a module may
exceed its width; `ofNat?` makes those that fit.
-/

namespace KernelIR

structure IntConst where
  bits : Nat
  value : Nat
  deriving DecidableEq, Inhabited

namespace IntConst

/-- The greatest value of `bits` bits.  Constants have from 1 to 64 bits. -/
def maxValue? (bits : Nat) : Option Nat :=
  if 1 ≤ bits ∧ bits ≤ 64 then some (1 <<< bits - 1) else none

def fits (c : IntConst) : Bool :=
  (maxValue? c.bits).any (c.value ≤ ·)

def ofNat? (bits value : Nat) : Option IntConst :=
  if fits ⟨bits, value⟩ then some ⟨bits, value⟩ else none

def i32 (value : Nat) : IntConst := ⟨32, value⟩

def ty (c : IntConst) : Ty := .int c.bits

def text (c : IntConst) : String := s!"i{c.bits} {c.value}"

@[simp] theorem fits_iff (c : IntConst) :
    c.fits = true ↔ 1 ≤ c.bits ∧ c.bits ≤ 64 ∧ c.value ≤ 1 <<< c.bits - 1 := by
  simp only [fits, maxValue?]
  split <;> simp <;> omega

theorem ofNat?_eq_some_iff {bits value : Nat} {c : IntConst} :
    ofNat? bits value = some c ↔ c = ⟨bits, value⟩ ∧ c.fits = true := by
  simp only [ofNat?]
  split <;> grind

end IntConst

end KernelIR
