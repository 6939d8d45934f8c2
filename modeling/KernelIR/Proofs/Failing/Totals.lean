import KernelIR.Proofs.Code
import KernelIR.Proofs.Symbols
import Mathlib

/-!
# Totals

The weights of what an arena or a body holds are summed up.  An edit that leaves every part as it is
or makes it lighter leaves the whole as it is or makes the total smaller.
-/

namespace KernelIR

theorem eq_self_or_sum_lt {α : Type} {g : α → α} {w : α → Nat} {l : List α}
    (h : ∀ x, g x = x ∨ w (g x) < w x) :
    (∀ x ∈ l, g x = x) ∨ (l.map fun x => w (g x)).sum < (l.map w).sum := by
  induction l with
  | nil => exact Or.inl fun _ hx => absurd hx List.not_mem_nil
  | cons x l ih =>
      simp only [List.forall_mem_cons, List.map_cons, List.sum_cons]
      rcases h x with hx | hx <;> rcases ih with hl | hl
      · exact Or.inl ⟨hx, hl⟩
      · rw [hx]
        exact Or.inr (Nat.add_lt_add_left hl _)
      · rw [List.map_congr_left fun x hx => congrArg w (hl x hx)]
        exact Or.inr (Nat.add_lt_add_right hx _)
      · exact Or.inr (Nat.add_lt_add hx hl)

namespace Arena

variable {k : SymbolKind} {α : Type} {a b : Arena k α} {h : Handle k} {v : α}

def total (w : α → Nat) (a : Arena k α) : Nat := (a.entries.map fun e => w e.2).sum

theorem total_erase (hv : a.get? h = some v) (w : α → Nat) :
    a.total w = w v + (a.erase h).total w :=
  ((entries_perm_of_get? hv).map _).sum_eq

theorem total_erase_lt {w : α → Nat} (hv : a.get? h = some v) (hw : 0 < w v) :
    (a.erase h).total w < a.total w := by
  rw [total_erase hv]
  exact Nat.lt_add_of_pos_left hw

theorem total_eq_of_get? {b : Arena k α} {v' : α} (hv' : b.get? h = some v')
    (hother : ∀ h', h' ≠ h → b.get? h' = a.get? h') (w : α → Nat) :
    b.total w = w v' + (a.erase h).total w := by
  have hrest : (b.erase h).entries.Perm (a.erase h).entries := by
    refine (List.perm_ext_iff_of_nodup (nodup_entries _) (nodup_entries _)).2 fun e => ?_
    rw [mem_entries_iff, mem_entries_iff]
    by_cases he : e.1 = h
    · rw [he, get?_erase_self, get?_erase_self]
    · rw [get?_erase_of_ne _ he, get?_erase_of_ne _ he, hother e.1 he]
  rw [total_erase hv']
  exact congrArg _ (hrest.map _).sum_eq

theorem total_modify {f : α → α} {w : α → Nat} (hw : ∀ v, w (f v) = w v) :
    (a.modify h f).total w = a.total w := by
  cases hv : a.get? h with
  | none => rw [modify_eq_self fun v hv' => by rw [hv] at hv'; cases hv']
  | some v =>
      have hv' : (a.modify h f).get? h = some (f v) := by simp [hv]
      rw [total_eq_of_get? hv' fun _ hne => get?_modify_of_ne a hne f, total_erase hv, hw]

theorem total_map (a : Arena k α) (f : α → α) (w : α → Nat) :
    (a.map f).total w = a.total fun v => w (f v) := by
  simp [total, entries_map, Function.comp_def]

theorem map_eq_self_or_total_lt {f : α → α} {w : α → Nat} (hf : ∀ v, f v = v ∨ w (f v) < w v) :
    a.map f = a ∨ (a.map f).total w < a.total w := by
  rw [total_map]
  refine (eq_self_or_sum_lt (g := fun e : Handle k × α => (e.1, f e.2)) (w := fun e => w e.2)
    (l := a.entries) fun e => (hf e.2).imp_left fun he => by rw [he]).imp_left fun h => ?_
  exact map_eq_self fun h' v hv => congrArg Prod.snd (h _ (mem_entries_iff.2 hv))

end Arena

namespace Module

variable {m m' : Module} {id : FuncId} {f g : Func} {w : Func → Nat}

theorem Updated.total_eq (h : m.Updated id g m') (hf : m.funcs.get? id = some f) :
    m'.funcs.total w + w f = m.funcs.total w + w g := by
  rw [Arena.total_eq_of_get? h.self h.other, Arena.total_erase hf]
  omega

theorem Updated.total_lt (h : m.Updated id g m') (hf : m.funcs.get? id = some f)
    (hlt : w g < w f) : m'.funcs.total w < m.funcs.total w := by
  have := h.total_eq hf (w := w)
  omega

/-- One function is left as it is or becomes lighter. -/
theorem modifyFunc_eq_self_or_lt (hf : m.funcs.get? id = some f) {k : Func → Func}
    (hk : k f = f ∨ w (k f) < w f) :
    m.modifyFunc id k = m ∨ (m.modifyFunc id k).funcs.total w < m.funcs.total w := by
  refine hk.imp (fun heq => ?_) fun hlt => (updated_modifyFunc hf k).total_lt hf hlt
  exact modifyFunc_eq_self fun g hg => by rwa [← Option.some.inj (hf.symm.trans hg)]

end Module

namespace Func

def load (w : Instr → Nat) (f : Func) : Nat := (f.code.map w).sum

variable {w : Instr → Nat} (hw : ∀ i : Instr, w i.bare = w i) (f : Func)

include hw

theorem load_eq : f.load w = (f.body.entries.map fun e => (e.2.instrs.map w).sum).sum := by
  rw [load, code, codeOf, List.map_flatMap, List.flatMap_def, List.sum_flatten, List.map_map]
  simp [Function.comp_def, hw]

theorem mapBlocks_eq_self_or_load_lt {g : Instr → Instr} {h : Block → Block}
    (hh : ∀ b, h b = { b with instrs := b.instrs.map g })
    (hg : ∀ i, g i = i ∨ w (g i) < w i) :
    f.mapBlocks h = f ∨ (f.mapBlocks h).load w < f.load w := by
  have hblock : ∀ b, h b = b ∨ ((h b).instrs.map w).sum < (b.instrs.map w).sum := by
    intro b
    rw [hh, List.map_map]
    refine (eq_self_or_sum_lt (l := b.instrs) hg).imp_left fun heq => ?_
    rw [List.map_congr_left heq, List.map_id']
  rw [load_eq hw, load_eq hw]
  have hentries : (f.mapBlocks h).body.entries = f.body.entries.map fun e => (e.1, h e.2) := rfl
  rw [hentries, List.map_map]
  refine (eq_self_or_sum_lt (g := fun e : Label × Block => (e.1, h e.2)) (l := f.body.entries)
    (w := fun e => (e.2.instrs.map w).sum) fun e =>
      (hblock e.2).imp_left fun he => by rw [he]).imp_left fun heq => ?_
  have hbody : f.body.map h = f.body :=
    OrderedMap.ext ((List.map_congr_left heq).trans (List.map_id' _))
  rw [mapBlocks, hbody]

theorem load_removeInstr {f g : Func} {pos : Position} {i : Instr}
    (h : f.removeInstr pos = .ok (i, g)) : f.load w = w i + g.load w := by
  rw [load, ((code_removeInstr h).1.map w).sum_eq, List.map_cons, List.sum_cons, hw, load]

theorem load_replaceInstr {f : Func} {pos : Position} {b : Block} {i : Instr} (new : List Instr)
    (hb : f.body.find? pos.label = some b) (hi : b.instrs[pos.index]? = some i) :
    f.load w + (new.map w).sum = (f.replaceInstr pos new).load w + w i := by
  obtain ⟨rest, hcode, hcode', -⟩ := code_replaceInstr new hb hi
  have hnew : (new.map Instr.bare).map w = new.map w := by
    rw [List.map_map]
    exact List.map_congr_left fun i _ => hw i
  rw [load, load, (hcode.map w).sum_eq, (hcode'.map w).sum_eq, List.map_append, List.sum_append,
    List.map_cons, List.sum_cons, hw, hnew]
  omega

omit hw in
theorem load_mapOperands (g : Operand → Operand) (hg : ∀ i, w (i.mapOperands g) = w i) :
    (f.mapBlocks (Block.mapOperands g)).load w = f.load w := by
  rw [load, code_mapOperands, List.map_map, load]
  exact congrArg List.sum (List.map_congr_left fun i _ => hg i)

end Func

end KernelIR
