import KernelIR.BackendMarks
import KernelIR.Convention
import KernelIR.Proofs.Failing.Totals
import Mathlib

/-!
# What the preparation leaves to do

Inlining and expansion add blocks, and nothing takes blocks away.  Where no block is added, symbols
are hidden, casts of callees dropped, conventions set and calls removed, and none of this is undone.
-/

namespace KernelIR

/-! ### Weights -/

def Callee.isCast : Callee → Bool
  | cast _ => true
  | _ => false

/-- What is left to do about an instruction.  To drop the cast of a callee takes a cast for each
argument at most. -/
def Instr.unprepared (conv : CallConv) : Instr → Nat
  | call c => (if c.conv = conv then 1 else 2) + if c.callee.isCast then c.args.length + 1 else 0
  | _ => 1

/-- Whether a symbol is still to be hidden, as a number. -/
def unhidden (comdat : Option String) (linkage : Linkage) : Nat :=
  if comdat = none ∧ linkage = .privateSymbol then 0 else 1

def Global.unprepared (g : Global) : Nat := unhidden g.comdat g.linkage

/-- What hiding symbols makes of a function, and below of a global. -/
def Func.hide (f : Func) : Func :=
  if f.isHideable then { f with comdat := none, linkage := .privateSymbol } else f

def Global.hide (g : Global) : Global :=
  if g.isHideable then { g with comdat := none, linkage := .privateSymbol } else g

/-- Kernels get the convention of device functions or that of plain ones. -/
def CallConv.unprepared (conv own : CallConv) : Nat :=
  if own = conv then 0 else if own = .spirKernel then 2 else 1

namespace Func

def blockCount (f : Func) : Nat := f.body.keys.length

def unprepared (conv : CallConv) (f : Func) : Nat :=
  unhidden f.comdat f.linkage + conv.unprepared f.conv + f.load (Instr.unprepared conv)

end Func

theorem Func.blockCount_removeInstr {f g : Func} {pos : Position} {i : Instr}
    (h : f.removeInstr pos = .ok (i, g)) : g.blockCount = f.blockCount := by
  cases hb : f.body.find? pos.label with
  | none => simp [removeInstr, hb] at h
  | some b =>
      obtain ⟨-, rfl⟩ := removeInstr_eq_ok h hb
      have hkeys := congrArg List.length (f.body.keys_modify pos.label fun b =>
        { b with instrs := b.instrs.eraseIdx pos.index })
      rwa [OrderedMap.modify_eq_insert hb] at hkeys

@[simp] theorem Func.blockCount_mapBlocks (f : Func) (g : Block → Block) :
    (f.mapBlocks g).blockCount = f.blockCount := by
  simp [blockCount, mapBlocks, OrderedMap.map]

namespace Instr

variable (conv : CallConv)

@[simp] theorem unprepared_bare (i : Instr) : i.bare.unprepared conv = i.unprepared conv := by
  cases i <;> rfl

@[simp] theorem unprepared_mapOperands (g : Operand → Operand) (i : Instr) :
    (i.mapOperands g).unprepared conv = i.unprepared conv := by
  cases i with
  | call c =>
      cases h : c.callee <;>
        simp [mapOperands, unprepared, Callee.mapOperands, Callee.isCast, h]
  | _ => rfl

theorem unprepared_pos (i : Instr) : 0 < i.unprepared conv := by
  cases i with
  | call c =>
      rw [unprepared]
      split_ifs <;> omega
  | _ => exact Nat.one_pos

theorem setCallConv_eq_self_or_lt (id : FuncId) (i : Instr) :
    i.setCallConv id conv = i ∨ (i.setCallConv id conv).unprepared conv < i.unprepared conv := by
  cases i with
  | call c =>
      by_cases hid : c.callee.resolve? = some id
      · by_cases hconv : c.conv = conv
        · left
          rw [setCallConv, if_pos hid, ← hconv]
        · right
          simp only [setCallConv, hid, if_true, unprepared, hconv, if_false]
          omega
      · left
        rw [setCallConv, if_neg hid]
  | _ => exact Or.inl rfl

end Instr

/-- Where only the body changes, the instructions decide. -/
theorem Func.unprepared_lt_of_load {conv : CallConv} {f g : Func}
    (hbody : g = { f with body := g.body })
    (hlt : g.load (Instr.unprepared conv) < f.load (Instr.unprepared conv)) :
    g.unprepared conv < f.unprepared conv := by
  have hcomdat : g.comdat = f.comdat := by rw [hbody]
  have hlinkage : g.linkage = f.linkage := by rw [hbody]
  have hconv : g.conv = f.conv := by rw [hbody]
  rw [unprepared, unprepared, hcomdat, hlinkage, hconv]
  exact Nat.add_lt_add_left hlt _

theorem hidden_or_lt (comdat : Option String) (linkage : Linkage) :
    comdat = none ∧ linkage = .privateSymbol ∨
      unhidden none .privateSymbol < unhidden comdat linkage := by
  by_cases h : comdat = none ∧ linkage = .privateSymbol
  · exact Or.inl h
  · right
    simp [unhidden, h]

theorem Func.hide_eq_self_or_lt (conv : CallConv) (f : Func) :
    f.hide = f ∨ f.hide.unprepared conv < f.unprepared conv := by
  rw [hide]
  split_ifs
  · refine (hidden_or_lt f.comdat f.linkage).imp (fun h => ?_) fun hlt =>
      Nat.add_lt_add_right (Nat.add_lt_add_right hlt _) _
    rw [← h.1, ← h.2]
  · exact Or.inl rfl

theorem Global.hide_eq_self_or_lt (g : Global) :
    g.hide = g ∨ g.hide.unprepared < g.unprepared := by
  rw [hide]
  split_ifs
  · refine (hidden_or_lt g.comdat g.linkage).imp_left fun h => ?_
    rw [← h.1, ← h.2]
  · exact Or.inl rfl

theorem Func.setConv_eq_self_or_lt (conv : CallConv) (f : Func) :
    { f with conv } = f ∨ ({ f with conv } : Func).unprepared conv < f.unprepared conv := by
  by_cases hconv : f.conv = conv
  · left
    rw [← hconv]
  · right
    have hlt : conv.unprepared conv < conv.unprepared f.conv := by
      simp only [CallConv.unprepared, if_true, if_neg hconv]
      split_ifs <;> omega
    exact Nat.add_lt_add_right (Nat.add_lt_add_left hlt _) _

/-- Of the calls to a function the convention is set, or it is the one to set. -/
theorem Func.setCallConv_eq_self_or_lt (conv : CallConv) (id : FuncId) (f : Func) :
    f.mapBlocks (Block.setCallConv id conv) = f ∨
      (f.mapBlocks (Block.setCallConv id conv)).unprepared conv < f.unprepared conv :=
  (f.mapBlocks_eq_self_or_load_lt (Instr.unprepared_bare conv) (fun _ => rfl)
    (Instr.setCallConv_eq_self_or_lt conv id)).imp_right (unprepared_lt_of_load rfl)

namespace Module

/-- Blocks count before all else, and more of them is less that is left. -/
def unprepared (conv : CallConv) (m : Module) : ℕᵒᵈ ×ₗ ℕ :=
  toLex (OrderDual.toDual (m.funcs.total Func.blockCount),
    m.funcs.total (Func.unprepared conv) + m.globals.total Global.unprepared)

variable {conv : CallConv} {m m' : Module} {id : FuncId} {f g : Func}

theorem unprepared_lt_of_blocks
    (h : m.funcs.total Func.blockCount < m'.funcs.total Func.blockCount) :
    m'.unprepared conv < m.unprepared conv :=
  Prod.Lex.toLex_lt_toLex.2 (Or.inl (OrderDual.toDual_lt_toDual (α := ℕ).2 h))

theorem unprepared_lt_of_eq
    (hblocks : m'.funcs.total Func.blockCount = m.funcs.total Func.blockCount)
    (hlt : m'.funcs.total (Func.unprepared conv) + m'.globals.total Global.unprepared <
      m.funcs.total (Func.unprepared conv) + m.globals.total Global.unprepared) :
    m'.unprepared conv < m.unprepared conv :=
  Prod.Lex.toLex_lt_toLex.2 (Or.inr ⟨congrArg OrderDual.toDual hblocks, hlt⟩)

/-- A function gets more blocks. -/
theorem Updated.unprepared_lt_of_blocks (h : m.Updated id g m') (hf : m.funcs.get? id = some f)
    (hlt : f.blockCount < g.blockCount) : m'.unprepared conv < m.unprepared conv := by
  have := h.total_eq hf (w := Func.blockCount)
  exact Module.unprepared_lt_of_blocks (by omega)

/-- A function becomes lighter. -/
theorem Updated.unprepared_lt (h : m.Updated id g m') (hf : m.funcs.get? id = some f)
    (hblocks : g.blockCount = f.blockCount) (hlt : g.unprepared conv < f.unprepared conv) :
    m'.unprepared conv < m.unprepared conv := by
  have hcount := h.total_eq hf (w := Func.blockCount)
  have hweight := h.total_lt hf hlt
  refine unprepared_lt_of_eq (by omega) ?_
  rw [h.globals]
  exact Nat.add_lt_add_right hweight _

theorem modifyFunc_eq_self_or_unprepared_lt (id : FuncId) {k : Func → Func}
    (hblocks : ∀ f, (k f).blockCount = f.blockCount)
    (hk : ∀ f, m.funcs.get? id = some f → k f = f ∨ (k f).unprepared conv < f.unprepared conv) :
    m.modifyFunc id k = m ∨ (m.modifyFunc id k).unprepared conv < m.unprepared conv := by
  cases hf : m.funcs.get? id with
  | none => exact Or.inl (modifyFunc_eq_self fun f hf' => by rw [hf] at hf'; cases hf')
  | some f =>
      refine (hk f hf).imp (fun heq => ?_) fun hlt =>
        (updated_modifyFunc hf k).unprepared_lt hf (hblocks f) hlt
      exact modifyFunc_eq_self fun f' hf' => by rwa [← Option.some.inj (hf.symm.trans hf')]

theorem mapFuncs_eq_self_or_unprepared_lt {k : Func → Func}
    (hblocks : ∀ f, (k f).blockCount = f.blockCount)
    (hk : ∀ f, k f = f ∨ (k f).unprepared conv < f.unprepared conv) :
    m.mapFuncs k = m ∨ (m.mapFuncs k).unprepared conv < m.unprepared conv := by
  refine (Arena.map_eq_self_or_total_lt (a := m.funcs) hk).imp (fun heq => ?_) fun hlt => ?_
  · rw [mapFuncs, heq]
  · refine unprepared_lt_of_eq ?_ (Nat.add_lt_add_right hlt _)
    rw [mapFuncs, Arena.total_map]
    exact congrArg (m.funcs.total ·) (funext hblocks)

theorem mapGlobals_eq_self_or_unprepared_lt {k : Global → Global}
    (hk : ∀ g, k g = g ∨ (k g).unprepared < g.unprepared) :
    { m with globals := m.globals.map k } = m ∨
      ({ m with globals := m.globals.map k } : Module).unprepared conv < m.unprepared conv := by
  refine (Arena.map_eq_self_or_total_lt (a := m.globals) hk).imp (fun heq => ?_) fun hlt =>
    unprepared_lt_of_eq rfl (Nat.add_lt_add_left hlt _)
  rw [heq]

end Module

end KernelIR
