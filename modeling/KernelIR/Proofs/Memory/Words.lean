import KernelIR.Proofs.Memory.Complete
import Mathlib

/-!
# Memory loops in words

As long as there are words for the registers and labels of the loops, memory intrinsics are expanded
in words as they are without end.  A loop takes as many of both as the kind of its call says, so
that they can be counted in front, from the calls that are there.
-/

namespace KernelIR

namespace Module

variable {m m' : Module} {id : FuncId} {f f₁ : Func} {call : Call} {pos : Position}
  {kind : MemIntrinsic}

/-- If a function calls memory intrinsics, the registers in use and those of the loops that take
the place of the calls are words, and so is the next one.  The labels are words likewise. -/
def LeavesLoopWords (m : Module) (id : FuncId) : Prop :=
  ∀ f, m.funcs.get? id = some f → m.memCalls id ≠ [] →
    f.nextReg + ((m.memCalls id).map fun e => e.2.regCount).sum < wordSize ∧
      f.nextLabel + ((m.memCalls id).map fun e => e.2.blockCount + 1).sum ≤ wordSize

theorem LeavesLoopWords.congr
    (hname : ∀ id, (m'.funcs.get? id).map (·.name) = (m.funcs.get? id).map (·.name))
    (hsame : m'.funcs.get? id = m.funcs.get? id) (h : m.LeavesLoopWords id) :
    m'.LeavesLoopWords id := by
  have hmem : m'.memIntrinsic? = m.memIntrinsic? := funext fun c => memIntrinsic?_congr hname rfl
  have hcalls : m'.memCalls id = m.memCalls id := by rw [memCalls, memCalls, hsame, hmem]
  rw [LeavesLoopWords, hcalls, hsame]
  exact h

/-- There are words for the first of the loops. -/
theorem LeavesLoopWords.first {es : List (Position × MemIntrinsic)} (h : m.LeavesLoopWords id)
    (hf : m.funcs.get? id = some f) (hcalls : m.memCalls id = (pos, kind) :: es) :
    f.nextReg + kind.regCount < wordSize ∧ f.nextLabel + (kind.blockCount + 1) ≤ wordSize := by
  obtain ⟨hregs, hlabels⟩ := h f hf (by simp [hcalls])
  rw [hcalls, List.map_cons, List.sum_cons, ← Nat.add_assoc] at hregs hlabels
  exact ⟨Nat.lt_of_le_of_lt (Nat.le_add_right _ _) hregs,
    Nat.le_trans (Nat.le_add_right _ _) hlabels⟩

end Module

namespace ModuleM

variable {m m' : Module} {id : FuncId} {f : Func} {call : Call} {pos : Position}
  {kind : MemIntrinsic}

namespace loopWords

def fill : Func where
  name := "llvm.memset.p0.i64"
  params := [⟨none, .privatePtr⟩, ⟨none, .i8⟩, ⟨none, .i64⟩]
  retTy := .void

def work : Func where
  name := "work"
  params := []
  retTy := .void

def module (blocks : List (Label × Block)) : Module where
  funcs := .ofList [fill, work, {
    name := "caller"
    params := [⟨none, .privatePtr⟩, ⟨none, .i8⟩, ⟨none, .i64⟩]
    retTy := .void
    body := .ofList blocks }]

end loopWords

end ModuleM

end KernelIR
