import KernelIR.Proofs.WellFormed.Function
import Mathlib

/-!
# Pruned bodies

A pruned body lacks some of its instructions and reads other operands in the rest.  Removals and
substitutions one after the other make one pruned body, whatever their order.
-/

namespace KernelIR

/-- Drops the instructions that `keep` does not keep, and reads `σ op` for `op` in all the rest. -/
def Block.prune (keep : Instr → Bool) (σ : Operand → Operand) (b : Block) : Block where
  instrs := (b.instrs.filter keep).map (Instr.mapOperands σ)
  terminator := b.terminator.mapOperands σ

def Func.prune (keep : Instr → Bool) (σ : Operand → Operand) (f : Func) : Func :=
  f.mapBlocks (Block.prune keep σ)

variable {keep keep' : Instr → Bool} {σ τ : Operand → Operand}

namespace Block

variable (b : Block)

theorem prune_prune : (b.prune keep σ).prune keep' τ =
    b.prune (fun i => keep i && keep' (i.mapOperands σ)) (τ ∘ σ) := by
  simp [prune, List.filter_map, List.filter_filter, Function.comp_def, Bool.and_comm]

theorem prune_mapOperands : (b.mapOperands τ).prune keep σ =
    b.prune (fun i => keep (i.mapOperands τ)) (σ ∘ τ) := by
  simp [prune, mapOperands, List.filter_map, Function.comp_def]

theorem prune_congr (hkeep : ∀ i ∈ b.instrs, keep i = keep' i)
    (hσ : ∀ op ∈ b.operands, σ op = τ op) : b.prune keep σ = b.prune keep' τ := by
  have hterminator : b.terminator.mapOperands σ = b.terminator.mapOperands τ :=
    Terminator.mapOperands_congr fun op hop => hσ op (List.mem_append_right _ hop)
  rw [prune, prune, hterminator, List.filter_congr hkeep]
  congr 1
  refine List.map_congr_left fun i hi => Instr.mapOperands_congr fun op hop => hσ op ?_
  exact List.mem_append_left _ (List.mem_flatMap.2 ⟨i, List.mem_of_mem_filter hi, hop⟩)

theorem prune_eq_self (hkeep : ∀ i ∈ b.instrs, keep i = true)
    (hσ : ∀ op ∈ b.operands, σ op = op) : b.prune keep σ = b := by
  have hall : b.prune keep σ = b.prune (fun _ => true) id := b.prune_congr hkeep hσ
  rw [hall, prune]
  simp [List.map_congr_left fun i _ => Instr.mapOperands_id i]

/-- It makes no difference whether an instruction that is not kept was removed before. -/
theorem prune_eraseIdx {n : Nat} {i : Instr} (hi : b.instrs[n]? = some i) (hkeep : keep i = false) :
    ({ b with instrs := b.instrs.eraseIdx n } : Block).prune keep σ = b.prune keep σ := by
  obtain ⟨hlt, rfl⟩ := List.getElem?_eq_some_iff.1 hi
  have hfilter : (b.instrs.eraseIdx n).filter keep = b.instrs.filter keep := by
    conv_rhs => rw [← List.take_append_drop n b.instrs, List.drop_eq_getElem_cons hlt]
    rw [List.eraseIdx_eq_take_drop_succ, List.filter_append, List.filter_append,
      List.filter_cons_of_neg (by simp [hkeep])]
  rw [prune, hfilter, prune]

theorem dests_prune : (b.prune keep σ).dests = (b.instrs.filter keep).filterMap Instr.dest? := by
  rw [dests, prune, List.filterMap_map]
  exact congrArg (fun h => (b.instrs.filter keep).filterMap h) (funext (Instr.dest?_mapOperands σ))

theorem mem_operands_prune {op : Operand} (h : op ∈ (b.prune keep σ).operands) :
    ∃ op₀ ∈ b.operands, σ op₀ = op := by
  rcases List.mem_append.1 h with h | h
  · obtain ⟨_, hmem, hop⟩ := List.mem_flatMap.1 h
    obtain ⟨i, hi, rfl⟩ := List.mem_map.1 hmem
    rw [Instr.operands_mapOperands] at hop
    obtain ⟨op₀, hop₀, rfl⟩ := List.mem_map.1 hop
    exact ⟨op₀, List.mem_append_left _ (List.mem_flatMap.2 ⟨i, List.mem_of_mem_filter hi, hop₀⟩),
      rfl⟩
  · rw [prune, Terminator.operands_mapOperands] at h
    obtain ⟨op₀, hop₀, rfl⟩ := List.mem_map.1 h
    exact ⟨op₀, List.mem_append_right _ hop₀, rfl⟩

theorem mem_phiLabels_prune {l : Label} (h : l ∈ (b.prune keep σ).phiLabels) :
    l ∈ b.phiLabels := by
  obtain ⟨_, hmem, hl⟩ := List.mem_flatMap.1 h
  obtain ⟨i, hi, rfl⟩ := List.mem_map.1 hmem
  rw [Instr.phiLabels_mapOperands] at hl
  exact List.mem_flatMap.2 ⟨i, List.mem_of_mem_filter hi, hl⟩

/-- A pruned block mentions what the instructions that are kept mention, and what ends it. -/
theorem mem_mentions_prune (hσ : ∀ id, σ (.func id) = .func id) {op : Operand} :
    op ∈ (b.prune keep σ).mentions ↔
      (∃ i ∈ b.instrs, keep i = true ∧ ∃ op₀ ∈ i.mentions, σ op₀ = op) ∨
        ∃ op₀ ∈ b.terminator.operands, σ op₀ = op := by
  simp [mentions, prune, Instr.mentions_mapOperands hσ, List.mem_flatMap, and_assoc]

end Block

namespace Func

variable {f g : Func} {pos : Position} {i : Instr}

theorem entries_prune (f : Func) (keep : Instr → Bool) (σ : Operand → Operand) :
    (f.prune keep σ).body.entries = f.body.entries.map fun e => (e.1, e.2.prune keep σ) := rfl

theorem mapBlocks_mapBlocks (h k : Block → Block) (f : Func) :
    (f.mapBlocks k).mapBlocks h = f.mapBlocks (h ∘ k) := by
  rw [mapBlocks, mapBlocks, mapBlocks]
  congr 1
  exact OrderedMap.ext (List.map_map ..)

theorem mapBlocks_congr {h k : Block → Block} (heq : ∀ b ∈ f.body.values, h b = k b) :
    f.mapBlocks h = f.mapBlocks k := by
  rw [mapBlocks, mapBlocks]
  congr 1
  refine OrderedMap.ext (List.map_congr_left fun e he => ?_)
  exact congrArg (Prod.mk e.1) (heq e.2 (List.mem_map_of_mem he))

theorem prune_prune (f : Func) : (f.prune keep σ).prune keep' τ =
    f.prune (fun i => keep i && keep' (i.mapOperands σ)) (τ ∘ σ) := by
  rw [prune, prune, mapBlocks_mapBlocks]
  exact mapBlocks_congr fun b _ => b.prune_prune

theorem prune_mapOperands (f : Func) : (f.mapBlocks (Block.mapOperands τ)).prune keep σ =
    f.prune (fun i => keep (i.mapOperands τ)) (σ ∘ τ) := by
  rw [prune, mapBlocks_mapBlocks]
  exact mapBlocks_congr fun b _ => b.prune_mapOperands

theorem prune_congr (hkeep : ∀ b ∈ f.body.values, ∀ i ∈ b.instrs, keep i = keep' i)
    (hσ : ∀ b ∈ f.body.values, ∀ op ∈ b.operands, σ op = τ op) :
    f.prune keep σ = f.prune keep' τ :=
  mapBlocks_congr fun b hb => b.prune_congr (hkeep b hb) (hσ b hb)

theorem prune_eq_self (hkeep : ∀ b ∈ f.body.values, ∀ i ∈ b.instrs, keep i = true)
    (hσ : ∀ b ∈ f.body.values, ∀ op ∈ b.operands, σ op = op) : f.prune keep σ = f := by
  have hbody : f.body.map (Block.prune keep σ) = f.body := by
    refine OrderedMap.ext ((List.map_congr_left fun e he => ?_).trans (List.map_id _))
    have hb := List.mem_map_of_mem (f := Prod.snd) he
    exact congrArg (Prod.mk e.1) (e.2.prune_eq_self (hkeep _ hb) (hσ _ hb))
  rw [prune, mapBlocks, hbody]

theorem mapOperands_eq_prune (f : Func) (τ : Operand → Operand) :
    f.mapBlocks (Block.mapOperands τ) = f.prune (fun _ => true) τ :=
  mapBlocks_congr fun b _ => by simp [Block.mapOperands, Block.prune]

theorem prune_removeInstr (h : f.removeInstr pos = .ok (i, g)) (hkeep : keep i = false) :
    g.prune keep σ = f.prune keep σ := by
  cases hb : f.body.find? pos.label with
  | none => simp [removeInstr, hb] at h
  | some b =>
      obtain ⟨hi, rfl⟩ := removeInstr_eq_ok h hb
      rw [prune, prune, mapBlocks, mapBlocks]
      congr 1
      refine OrderedMap.ext_find? fun l => ?_
      rw [OrderedMap.find?_map, OrderedMap.find?_map]
      by_cases hl : l = pos.label
      · subst hl
        rw [OrderedMap.find?_insert_self, hb]
        exact congrArg some (b.prune_eraseIdx hi hkeep)
      · rw [OrderedMap.find?_insert_of_ne _ hl]

/-- The one instruction that `keep` does not keep is removed. -/
theorem eq_prune_of_removeInstr (h : f.removeInstr pos = .ok (i, g)) (hkeep : keep i = false)
    (hrest : ∀ b ∈ g.body.values, ∀ j ∈ b.instrs, keep j = true) : g = f.prune keep id := by
  rw [← prune_removeInstr h hkeep]
  exact (prune_eq_self hrest fun _ _ _ _ => rfl).symm

theorem dests_prune (f : Func) (keep : Instr → Bool) (σ : Operand → Operand) :
    (f.prune keep σ).dests =
      f.body.values.flatMap fun b => (b.instrs.filter keep).filterMap Instr.dest? := by
  simp only [dests, OrderedMap.values, entries_prune, List.map_map, List.flatMap_map,
    Function.comp_apply, Block.dests_prune]

theorem mem_dests_prune {r : Reg} : r ∈ (f.prune keep σ).dests ↔
    ∃ b ∈ f.body.values, ∃ i ∈ b.instrs, keep i = true ∧ i.dest? = some r := by
  simp [dests_prune, and_assoc]

theorem nodup_dests_prune (h : f.dests.Nodup) : (f.prune keep σ).dests.Nodup := by
  refine h.sublist ?_
  rw [dests_prune]
  exact List.Sublist.flatMap_right _ fun b _ => List.filter_sublist.filterMap _

/-- Pruning keeps a body in single-assignment form when all that is read instead is in scope. -/
theorem Checked.prune (h : f.Checked)
    (hσ : ∀ op : Operand, op.InScope (fun _ => True) f.params.length f.dests →
      (σ op).InScope (fun _ => True) f.params.length (f.prune keep σ).dests) :
    (f.prune keep σ).Checked := by
  have hcontains : ∀ l, f.body.contains l = true → (f.prune keep σ).body.contains l = true := by
    intro l hl
    rw [OrderedMap.contains_iff] at hl ⊢
    exact (OrderedMap.keys_map (Block.prune keep σ) f.body).symm ▸ hl
  have hblock : ∀ l b', (f.prune keep σ).body.find? l = some b' →
      ∃ b, f.body.find? l = some b ∧ b.prune keep σ = b' := by
    intro l b' hb'
    exact Option.map_eq_some_iff.1 ((OrderedMap.find?_map _ f.body l).symm.trans hb')
  refine ⟨fun hdecl => hcontains _ (h.entry ?_), nodup_dests_prune h.nodup,
    fun l b' hb' op' hop' => ?_, fun l b' hb' k hk => ?_⟩
  · simpa [isDeclaration, OrderedMap.isEmpty, entries_prune] using hdecl
  · obtain ⟨b, hb, rfl⟩ := hblock l b' hb'
    obtain ⟨op, hop, rfl⟩ := b.mem_operands_prune hop'
    exact operandFault?_eq_none_iff.2 (hσ op (operandFault?_eq_none_iff.1 (h.reads l b hb op hop)))
  · obtain ⟨b, hb, rfl⟩ := hblock l b' hb'
    refine hcontains k (h.labels l b hb k ?_)
    rcases List.mem_append.1 hk with hk | hk
    · exact List.mem_append_left _ (by simpa [Block.prune] using hk)
    · exact List.mem_append_right _ (b.mem_phiLabels_prune hk)

end Func

end KernelIR
