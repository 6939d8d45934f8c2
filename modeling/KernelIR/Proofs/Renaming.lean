import KernelIR.Inline
import KernelIR.Proofs.Execution
import Mathlib

/-!
# Renamed code does the same

Instructions and terminators act as before if their operands are replaced by others that have the
same values, and their results, labels and phis follow.
-/

namespace KernelIR

variable {M : Machine}

namespace Instr

@[simp] theorem act_mapPhiLabels (g : Label → Label) (i : Instr) (eval : Operand → M.Value)
    (mem : M.Memory) : (i.mapPhiLabels g).act eval mem = i.act eval mem := by
  cases i <;> rfl

@[simp] theorem act_mapDest (g : Reg → Reg) (i : Instr) (eval : Operand → M.Value)
    (mem : M.Memory) : (i.mapDest g).act eval mem = i.act eval mem := by
  cases i <;> rfl

/-- An instruction sees the values of its operands only. -/
theorem act_mapOperands {g : Operand → Operand} {i : Instr} (eval eval' : Operand → M.Value)
    (hfunc : ∀ id, eval' (.func id) = eval (.func id))
    (h : ∀ op ∈ i.operands, eval' (g op) = eval op) (mem : M.Memory) :
    (i.mapOperands g).act eval' mem = i.act eval mem := by
  have hmap : (i.mapOperands g).operands.map eval' = i.operands.map eval := by
    rw [operands_mapOperands, List.map_map]
    exact List.map_congr_left h
  have hcompute : (i.mapOperands g).op?.bind (fun op =>
      (M.compute op ((i.mapOperands g).operands.map eval') mem).map fun r =>
        Action.set (M := M) r.1 r.2) =
      i.op?.bind fun op => (M.compute op (i.operands.map eval) mem).map fun r => .set r.1 r.2 := by
    rw [hmap, op?_mapOperands]
  cases i with
  | call c =>
      have hargs : (c.args.map g).map eval' = c.args.map eval := by
        rw [List.map_map]
        exact List.map_congr_left fun op hop => h op (List.mem_append_right _ hop)
      have htarget : eval' (c.callee.mapOperands g).target = eval c.callee.target := by
        cases hc : c.callee with
        | indirect op => exact h op (List.mem_append_left _ (by simp [hc, Callee.operands]))
        | _ => exact hfunc _
      simp only [mapOperands, act, hargs, htarget]
  | _ => exact hcompute

end Instr

namespace Terminator

theorem act_mapOperands {g : Operand → Operand} {t : Terminator} {eval eval' : Operand → M.Value}
    (h : ∀ op ∈ t.operands, eval' (g op) = eval op) :
    (t.mapOperands g).act eval' = t.act eval := by
  cases t with
  | branch c l l' => simp [mapOperands, act, h c (List.mem_singleton_self c)]
  | ret value =>
      cases value with
      | none => rfl
      | some op => simp [mapOperands, act, h op (by simp [operands])]
  | _ => rfl

theorem act_mapTargets (g : Label → Label) (t : Terminator) (eval : Operand → M.Value) :
    (t.mapTargets g).act eval = (t.act eval).map (Action.mapLabel g) := by
  cases t with
  | branch c l l' =>
      simp only [mapTargets, act, Option.map_map]
      refine congrArg (Option.map · _) (funext fun b => ?_)
      cases b <;> rfl
  | _ => rfl

end Terminator

def Phi.rename (dest : Reg → Reg) (label : Label → Label) (op : Operand → Operand) (p : Phi) :
    Phi :=
  ⟨dest p.dest, p.ty, p.incoming.map fun e => (label e.1, op e.2)⟩

theorem leadingPhis_map {g : Instr → Instr} {gp : Phi → Phi} (hphi : ∀ p, g (.phi p) = .phi (gp p))
    (hother : ∀ i, (∀ p, i ≠ .phi p) → ∀ p, g i ≠ .phi p) (is : List Instr) :
    leadingPhis (is.map g) = (leadingPhis is).map gp := by
  induction is with
  | nil => rfl
  | cons i is ih =>
      cases i with
      | phi p => simp [leadingPhis, hphi, ih]
      | _ =>
          rw [List.map_cons]
          generalize hi : g _ = j
          cases j with
          | phi p => exact absurd hi (hother _ (by intro q hq; cases hq) p)
          | _ => rfl

theorem leadingPhis_take {is : List Instr} {n : Nat} (h : (leadingPhis is).length ≤ n) :
    leadingPhis (is.take n) = leadingPhis is := by
  induction is generalizing n with
  | nil => simp [leadingPhis]
  | cons i is ih =>
      cases i with
      | phi p =>
          cases n with
          | zero => simp [leadingPhis] at h
          | succ n => simp [leadingPhis, ih (Nat.le_of_succ_le_succ h)]
      | _ => cases n <;> rfl

theorem lookup_map {label : Label → Label} {op : Operand → Operand} {es : List (Label × Operand)}
    {a a' : Label} (h : ∀ e ∈ es, label e.1 = a' ↔ e.1 = a) :
    (es.map fun e => (label e.1, op e.2)).lookup a' = (es.lookup a).map op := by
  induction es with
  | nil => rfl
  | cons e es ih =>
      obtain ⟨k, v⟩ := e
      have ih := ih fun e' he' => h e' (List.mem_cons_of_mem _ he')
      have hk := h (k, v) List.mem_cons_self
      by_cases hka : k = a
      · have hka' := hk.2 hka
        simp [hka, ← hka']
      · have hka' : ¬label k = a' := fun h' => hka (hk.1 h')
        have hne : (a == k) = false := by simpa using Ne.symm hka
        have hne' : (a' == label k) = false := by simpa using Ne.symm hka'
        simp [List.lookup_cons, hne, hne', ih]

namespace Frame

theorem lookup_choose_eq_none_iff {F : Frame M} {ps : List Phi} {r : Reg} :
    (F.choose ps).lookup r = none ↔ r ∉ ps.map Phi.dest := by
  simp only [choose, List.lookup_eq_none_iff, bne_iff_ne, List.mem_map]
  constructor
  · rintro h ⟨p, hp, rfl⟩
    exact h _ ⟨p, hp, rfl⟩ rfl
  · rintro h _ ⟨p, hp, rfl⟩ rfl
    exact h ⟨p, hp, rfl⟩

theorem choose_rename {F F' : Frame M} {dest : Reg → Reg} {label : Label → Label}
    {op : Operand → Operand} {ps : List Phi}
    (hlabel : ∀ p ∈ ps, ∀ e ∈ p.incoming, label e.1 = F'.pos.label ↔ e.1 = F.pos.label)
    (heval : ∀ p ∈ ps, ∀ o, (F.pos.label, o) ∈ p.incoming → F'.eval (op o) = F.eval o) :
    F'.choose (ps.map (Phi.rename dest label op)) =
      (F.choose ps).map fun e => (dest e.1, e.2) := by
  simp only [choose, List.map_map]
  refine List.map_congr_left ?_
  intro p hp
  simp only [Function.comp_apply, Phi.rename, lookup_map (hlabel p hp), Prod.mk.injEq, true_and]
  cases ho : p.incoming.lookup F.pos.label with
  | none => rfl
  | some o =>
      have hmem : (F.pos.label, o) ∈ p.incoming := by
        obtain ⟨l₁, l₂, heq, -⟩ := List.lookup_eq_some_iff.1 ho
        rw [heq]
        simp
      exact heval p hp o hmem

end Frame

end KernelIR
