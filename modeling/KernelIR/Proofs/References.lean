import KernelIR.Convention
import KernelIR.Proofs.Symbols
import KernelIR.Proofs.Verification
import Mathlib

/-!
# References to functions

What bodies and initializers mention when references are redirected, and what erasing and replacing
a function leave behind.
-/

namespace KernelIR

namespace Instr

section SetCallConv

variable (id : FuncId) (conv : CallConv) (i : Instr)

/-- Nothing but a convention changes. -/
theorem setCallConv_eq : i.setCallConv id conv = i ∨
    ∃ c, i = call c ∧ i.setCallConv id conv = call { c with conv } := by
  cases i with
  | call c =>
      rw [setCallConv]
      split_ifs
      · exact Or.inr ⟨c, rfl, rfl⟩
      · exact Or.inl rfl
  | _ => exact Or.inl rfl

@[simp] theorem mentions_setCallConv : (i.setCallConv id conv).mentions = i.mentions := by
  obtain h | ⟨c, rfl, h⟩ := setCallConv_eq id conv i <;> rw [h]
  rfl

end SetCallConv

@[simp] theorem mentions_mapFuncs (k : FuncId → FuncId) (i : Instr) :
    (i.mapFuncs k).mentions = i.mentions.map (.mapFunc k) := by
  cases i with
  | call c => cases hc : c.callee <;> simp [mapFuncs, mapOperands, mentions, hc,
      Callee.mapTarget, Callee.mapOperands, Callee.target, Operand.mapFunc]
  | _ => simp [mapFuncs, mapOperands, mentions, operands]

/-- Each mention is counted once: the target of a call that resolves is one of them. -/
theorem refCount_eq (id : FuncId) (i : Instr) : i.refCount id = i.mentions.count (.func id) := by
  cases i with
  | call c => simp [refCount, mentions, List.count_cons, Callee.resolve?_eq_some_iff, Nat.add_comm]
  | _ => rfl

end Instr

namespace Func

theorem mentions_mapBlocks {g : Block → Block} {k : Operand → Operand}
    (h : ∀ b, (g b).mentions = b.mentions.map k) (f : Func) :
    (f.mapBlocks g).mentions = f.mentions.map k := by
  have hentries : (f.mapBlocks g).body.entries = f.body.entries.map fun e => (e.1, g e.2) := rfl
  rw [mentions, mentions, OrderedMap.values, OrderedMap.values, hentries]
  simp only [List.flatMap_map, List.map_flatMap, h]

@[simp] theorem mentions_mapFuncs (k : FuncId → FuncId) (f : Func) :
    (f.mapBlocks (Block.mapFuncs k)).mentions = f.mentions.map (.mapFunc k) :=
  mentions_mapBlocks (fun b => by
    simp [Block.mentions, Block.mapFuncs, List.flatMap_map, List.map_flatMap]) f

@[simp] theorem mentions_setCallConv (id : FuncId) (conv : CallConv) (f : Func) :
    (f.mapBlocks (Block.setCallConv id conv)).mentions = f.mentions := by
  rw [mentions_mapBlocks (k := fun op => op) (fun b => ?_), List.map_id']
  simp [Block.mentions, Block.setCallConv, List.flatMap_map]

end Func

theorem Operand.mapFunc_mapFunc (h k : FuncId → FuncId) (op : Operand) :
    (op.mapFunc k).mapFunc h = op.mapFunc (h ∘ k) := by
  cases op <;> rfl

theorem Operand.mapFunc_id (op : Operand) : op.mapFunc id = op := by
  cases op <;> rfl

namespace Global

variable (h k : FuncId → FuncId) (g : Global)

theorem mapFuncs_mapFuncs : (g.mapFuncs k).mapFuncs h = g.mapFuncs (h ∘ k) := by
  rcases g with ⟨name, ty, space, linkage, comdat, init⟩
  rcases init with _ | (_ | _ | _ | list) <;> simp [mapFuncs]

theorem mapFuncs_id : g.mapFuncs id = g := by
  rcases g with ⟨name, ty, space, linkage, comdat, init⟩
  rcases init with _ | (_ | _ | _ | list) <;> simp [mapFuncs]

@[simp] theorem name_mapFuncs : (g.mapFuncs k).name = g.name := by
  rcases g with ⟨name, ty, space, linkage, comdat, init⟩
  rcases init with _ | (_ | _ | _ | list) <;> rfl

@[simp] theorem listed_mapFuncs : (g.mapFuncs k).listed = g.listed.map k := by
  rcases g with ⟨name, ty, space, linkage, comdat, init⟩
  rcases init with _ | (_ | _ | _ | list) <;> rfl

end Global

theorem foldl_add_eq_count {α : Type} {c : α → Nat} {ops : α → List Operand} {op : Operand}
    (h : ∀ x, c x = (ops x).count op) (xs : List α) (n : Nat) :
    xs.foldl (fun n x => n + c x) n = n + (xs.flatMap ops).count op := by
  induction xs generalizing n with
  | nil => rfl
  | cons x xs ih => rw [List.foldl_cons, ih, h, List.flatMap_cons, List.count_append, Nat.add_assoc]

theorem Block.refCount_eq (id : FuncId) (b : Block) :
    b.refCount id = b.mentions.count (.func id) := by
  rw [refCount, foldl_add_eq_count (Instr.refCount_eq id), mentions, List.count_append,
    Nat.add_comm]

theorem Func.refCount_eq (id : FuncId) (f : Func) :
    f.refCount id = f.mentions.count (.func id) := by
  rw [refCount, foldl_add_eq_count (Block.refCount_eq id), Nat.zero_add, mentions]

namespace Module

variable {m m' : Module} {id : FuncId}

theorem refCount_eq (id : FuncId) (m : Module) :
    m.refCount id = m.mentions.count (.func id) := by
  have hlisted : ∀ g : Global, g.listed.count id = (g.listed.map Operand.func).count (.func id) :=
    fun g => (List.count_map_of_injective g.listed _ (fun _ _ => Operand.func.inj) id).symm
  rw [refCount, foldl_add_eq_count hlisted, foldl_add_eq_count (Func.refCount_eq id),
    Nat.zero_add, mentions, List.count_append]

theorem refCount_eq_zero_iff : m.refCount id = 0 ↔ .func id ∉ m.mentions := by
  rw [refCount_eq, List.count_eq_zero]

/-- Erasing takes one function away, to which nothing refers. -/
theorem eraseFunc_eq_ok {f : Func} (h : m.eraseFunc id = .ok (f, m')) :
    m.funcs.get? id = some f ∧ .func id ∉ m.mentions ∧
      m' = { m with funcs := m.funcs.erase id } := by
  rw [eraseFunc] at h
  split at h
  · cases h
  · next g hg =>
      dsimp only at h
      split_ifs at h with hcount
      cases h
      exact ⟨hg, refCount_eq_zero_iff.1 hcount, rfl⟩

theorem get?_redirect (k : FuncId → FuncId) {f : Func} (hf : m.funcs.get? id = some f) :
    (m.redirect k).funcs.get? id = some (f.mapBlocks (Block.mapFuncs k)) := by
  rw [redirect, Arena.get?_map, hf]
  rfl

/-- What the references to `old` become when it is replaced by `new`. -/
def sendTo (old new : FuncId) (id' : FuncId) : FuncId := if id' = old then new else id'

/-- Replacing redirects the references to a function and then erases it. -/
theorem replaceFunc_eq_ok {new : FuncId} {r : Func} (h : m.replaceFunc id new = .ok (r, m')) :
    ∃ f g, m.funcs.get? id = some f ∧ m.funcs.get? new = some g ∧
      .func id ∉ (m.redirect (sendTo id new)).mentions ∧
        m' = { m.redirect (sendTo id new) with
          funcs := (m.redirect (sendTo id new)).funcs.erase id } := by
  rw [replaceFunc] at h
  split at h
  · cases h
  · cases h
  · next f g hf hg =>
      split_ifs at h
      obtain ⟨-, hid, heq⟩ := eraseFunc_eq_ok h
      exact ⟨f, g, hf, hg, hid, heq⟩

/-- `old` is gone, and what referred to it refers to `new`. -/
structure Replaced (m : Module) (old new : FuncId) (m' : Module) : Prop where
  gone : m'.funcs.get? old = none
  other : ∀ id', id' ≠ old → m'.funcs.get? id' =
    (m.funcs.get? id').map (Func.mapBlocks (Block.mapFuncs (sendTo old new)))
  globals : ∀ id', m'.globals.get? id' =
    (m.globals.get? id').map (Global.mapFuncs (sendTo old new))

theorem replaced_of_replaceFunc {new : FuncId} {r : Func} (h : m.replaceFunc id new = .ok (r, m')) :
    m.Replaced id new m' := by
  obtain ⟨-, -, -, -, -, rfl⟩ := replaceFunc_eq_ok h
  refine ⟨Arena.get?_erase_self _ _, fun id' hne => ?_, fun id' => Arena.get?_map _ _ _⟩
  exact (Arena.get?_erase_of_ne _ hne).trans (Arena.get?_map _ _ _)

theorem Replaced.nodup_symbols {new : FuncId} (h : m.Replaced id new m') (hm : m.symbols.Nodup) :
    m'.symbols.Nodup := by
  refine nodup_symbols_of_names hm (fun id' f' hf' => ?_) fun id' g' hg' => ?_
  · by_cases hid : id' = id
    · rw [hid, h.gone] at hf'
      cases hf'
    · obtain ⟨f, hf, rfl⟩ := Option.map_eq_some_iff.1 ((h.other id' hid).symm.trans hf')
      exact ⟨f, hf, rfl⟩
  · obtain ⟨g, hg, rfl⟩ := Option.map_eq_some_iff.1 ((h.globals id').symm.trans hg')
    exact ⟨g, hg, (g.name_mapFuncs _).symm⟩

end Module

end KernelIR
