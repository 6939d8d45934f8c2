/-!
# Words

Registers and labels are numbered by machine words.  What counts them without end has a twin here
and there that counts in words, and is told what becomes of a sum that no word can hold.
-/

namespace KernelIR

/-- The numbers below are words. -/
def wordSize : Nat := UInt32.size

def wrap (n : Nat) : Nat := n % wordSize

/-- What a build does with a sum that is no word: one with checks stops, any other wraps around. -/
inductive Overflow where
  | stops
  | wraps
  deriving DecidableEq, Inhabited

namespace Overflow

variable {α : Type}

/-- What comes of counting up to `top`: `exact` if that is a word. -/
def upTo (o : Overflow) (top : Nat) (exact wrapped : α) : Option α :=
  if top < wordSize then some exact
  else
    match o with
    | stops => none
    | wraps => some wrapped

def word? (o : Overflow) (n : Nat) : Option Nat := o.upTo n n (wrap n)

variable {o : Overflow} {n k : Nat}

end Overflow

end KernelIR
