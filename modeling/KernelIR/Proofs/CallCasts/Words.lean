import KernelIR.Proofs.CallCasts.Complete
import Mathlib

/-!
# Casts of callees in words

As long as there are words for the casts of operands, the casts of callees are dropped in words as
they are without end.  The casts that a call needs are the same before and after the casts of other
callees are dropped, so that they can be counted in front.
-/

namespace KernelIR

namespace Module

variable {m m' : Module} {f f₁ : Func} {call : Call} {id caller : FuncId} {pos : Position}
  {retTy : Ty} {tys : List Ty}

/-- How many operands of `call` have to be cast when the cast of its callee is dropped. -/
def castsNeeded (m : Module) (f : Func) (call : Call) : Nat :=
  match (m.droppableCast? f call).bind m.funcs.get? with
  | some g =>
    (m.typedArgs f call.args (g.params.map (·.ty))).countP fun e => e.1.2 != some e.2
  | none => 0

theorem Droppable.castsNeeded_eq (h : m.Droppable f call id retTy tys) :
    m.castsNeeded f call = (adaptArgs f.nextReg (m.typedArgs f call.args tys)).1.length := by
  obtain ⟨g, hg, hprototype⟩ := Option.map_eq_some_iff.1 h.live
  cases hprototype
  rw [castsNeeded, droppableCast?_eq_some_iff.2 ⟨_, _, h⟩, Option.bind_some, hg, length_adaptArgs]

section Kept

/-! What the other calls need is not touched. -/

variable
  (hfuncs : ∀ id, (m'.funcs.get? id).map Func.prototype = (m.funcs.get? id).map Func.prototype)
  (hglobals : m'.globals = m.globals) (hc : f.Carries f₁) (hcall : .call call ∈ f.flat)

include hfuncs hglobals hc hcall

end Kept

section Round

variable (h : m.Droppable f call id retTy tys) (hcall : f.callAt pos = .ok call)

include hcall

include h

/-- The casts take the registers that were counted for them. -/
theorem Droppable.nextReg_le :
    (f.replaceInstr pos (m.uncastCall f call id retTy tys)).nextReg ≤
      f.nextReg + m.castsNeeded f call := by
  obtain ⟨b, hb, hi⟩ := Func.callAt_eq_ok_iff.1 hcall
  obtain ⟨rest, hcode, hcode', hexits⟩ :=
    Func.code_replaceInstr (m.uncastCall f call id retTy tys) hb hi
  have hadapts := adapts_adaptArgs f.nextReg (m.typedArgs f call.args tys)
  have hbelow : ∀ r ∈ destsOf (adaptArgs f.nextReg (m.typedArgs f call.args tys)).1,
      r < f.nextReg + m.castsNeeded f call := fun r hr => by
    rw [hadapts.results, List.mem_range'_1] at hr
    rw [h.castsNeeded_eq]
    exact hr.2
  have hcalled := Func.hasCall_of_callAt hcall
  have hgiven : ∀ r, .reg r ∈ call.args → r < f.nextReg + m.castsNeeded f call := fun r hr =>
    Nat.lt_add_right _ (Func.lt_nextReg_of_mem_args hcalled hr)
  have hexits' : (f.replaceInstr pos (m.uncastCall f call id retTy tys)).exits.Perm
      ([] ++ f.exits) := hexits
  refine Func.nextReg_le_of_code hcode' hexits'
    (fun i hi => hcode.symm.subset (List.mem_cons_of_mem _ hi)) (Nat.le_add_right _ _)
    (fun r hr => ?_) fun r hr => ?_
  · rw [destsOf_map Instr.dest?_bare, destsOf_uncastCall] at hr
    exact hbelow r hr
  · rw [List.append_nil, List.flatMap_map] at hr
    simp only [Instr.mentions_bare] at hr
    obtain ⟨i, hi, hr⟩ := List.mem_flatMap.1 hr
    rcases List.mem_append.1 hi with hi | hi
    · obtain ⟨c, rfl, hc⟩ := hadapts.reads i hi
      exact hgiven r (mem_of_mem_typed (List.mem_singleton.1 hr ▸ hc))
    · obtain rfl := List.mem_singleton.1 hi
      rcases List.mem_cons.1 hr with heq | hr
      · cases heq
      · rcases hadapts.passed _ hr with hr | ⟨s, hs, heq⟩
        · exact hgiven r (mem_of_mem_typed hr)
        · cases heq
          exact hbelow r hs

end Round

end Module

namespace ModuleM

variable {m m' : Module}

namespace castWords

def calleeId : FuncId := ⟨1, 1⟩

def callee : Func where
  name := "callee"
  params := [⟨none, .ptr .generic⟩]
  retTy := .void

/-- Loads its parameter into registers before it runs the rest of its code. -/
def caller (defined : List Reg) (rest : List Instr) : Func where
  name := "caller"
  params := [⟨none, .privatePtr⟩]
  retTy := .void
  body := .ofList [(.entry,
    ⟨defined.map (fun r => .load r .privatePtr (.arg 0) false) ++ rest, .ret none⟩)]

/-- The parameter goes to a function that expects it in another address space. -/
def module (defined : List Reg) : Module where
  funcs := .ofList [callee,
    caller defined [.call ⟨none, .void, .cast calleeId, [.arg 0], .c⟩]]

/-- The same with the parameter cast into the register `r`. -/
def uncast (defined : List Reg) (r : Reg) : Module where
  funcs := .ofList [callee,
    caller defined [.cast ⟨r, .addrSpaceCast, .arg 0, .ptr .generic⟩,
      .call ⟨none, .void, .direct calleeId, [.reg r], .c⟩]]

end castWords

end ModuleM

end KernelIR
