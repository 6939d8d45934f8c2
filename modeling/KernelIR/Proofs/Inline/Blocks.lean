import KernelIR.Proofs.Dominance
import KernelIR.Proofs.Inline.Splice
import Mathlib

/-!
# The blocks of a spliced body, one by one

What stands at the label of the call, at the label behind it, at the other labels of the caller,
and at the labels of the copy.
-/

namespace KernelIR

@[simp] theorem Instr.mapPhiLabels_id (i : Instr) : i.mapPhiLabels id = i := by
  cases i <;> simp [Instr.mapPhiLabels]

theorem Func.mem_dests_of_instr? {f : Func} {pos : Position} {i : Instr} {r : Reg}
    (hi : f.instr? pos = some i) (hr : i.dest? = some r) : r ∈ f.dests := by
  rw [Func.dests_eq]
  exact List.mem_filterMap.2 ⟨_, Func.mem_instrs_iff.2 (Func.instr?_eq_some_iff.1 hi), hr⟩

namespace Instr

theorem mapOperands_eq_self {g : Operand → Operand} {i : Instr}
    (h : ∀ op ∈ i.operands, g op = op) : i.mapOperands g = i :=
  (mapOperands_congr (g := id) h).trans i.mapOperands_id

end Instr

namespace Terminator

theorem mapOperands_eq_self {g : Operand → Operand} {t : Terminator}
    (h : ∀ op ∈ t.operands, g op = op) : t.mapOperands g = t :=
  (mapOperands_congr (g := id) h).trans t.mapOperands_id

end Terminator

theorem Splice.exists_operand {s : Splice} {t : Terminator} {op : Operand}
    (h : op ∈ (s.terminator t).operands) : ∃ o, s.operand o = op := by
  cases t with
  | branch c l l' => exact ⟨c, (List.mem_singleton.1 h).symm⟩
  | _ => exact nomatch h

theorem Splice.mem_returns_iff {s : Splice} {l : Label} {v : Operand} :
    (l, v) ∈ s.returns ↔ ∃ k b value, s.callee.body.find? k = some b ∧
      b.terminator = .ret value ∧ s.label k = l ∧ (value.map s.operand).getD .undefined = v := by
  simp only [Splice.returns, List.mem_filterMap, Prod.exists, OrderedMap.mem_entries_iff]
  refine exists_congr fun k => exists_congr ?_
  intro b
  cases b.terminator with
  | ret value => simp
  | _ => simp

namespace Inline

/-- `f` is the body of `caller` with `call`, which stands at `pos` in block `b`, inlined. -/
structure Spliced (caller callee f : Func) (call : Call) (pos : Position) (b : Block) : Prop where
  block : caller.body.find? pos.label = some b
  call_at : b.instrs[pos.index]? = some (.call call)
  entries : f.body.entries.Perm ((joined caller call callee pos b).map
    (bindResult call (copy caller call callee).returns caller.nextLabel))

/-- Moreover, both bodies are in strict single-assignment form. -/
structure Inlined (caller callee f : Func) (call : Call) (pos : Position) (b : Block) : Prop
    extends Spliced caller callee f call pos b where
  caller_checked : caller.Checked
  callee_checked : callee.Checked
  caller_strict : caller.Strict
  callee_strict : callee.Strict

variable {caller callee f : Func} {call : Call} {pos : Position} {b : Block}

/-- What is read in place of an operand of the caller. -/
abbrev subst (caller callee : Func) (call : Call) : Operand → Operand :=
  resultRead call (copy caller call callee).returns

theorem subst_of_ne {op : Operand} (h : ∀ d, call.dest = some d → op ≠ .reg d) :
    subst caller callee call op = op := by
  unfold subst
  cases hd : call.dest with
  | none => simp [resultRead, hd]
  | some d =>
      rcases (copy caller call callee).returns with _ | ⟨e, _ | ⟨e', es⟩⟩
      · simp [resultRead, hd, Operand.replaceReg, h d hd]
      · simp [resultRead, hd, Operand.replaceReg, h d hd]
      · simp [resultRead, hd]

theorem subst_reg_of_ne {r : Reg} (h : call.dest ≠ some r) :
    subst caller callee call (.reg r) = .reg r :=
  subst_of_ne fun d hd heq => h (by rw [hd, Operand.reg.inj heq])

/-- A register of the caller that is read in place of the result is an argument of the call. -/
theorem mem_args_of_subst {d a : Nat} (hd : call.dest = some d)
    (hs : subst caller callee call (.reg d) = .reg a) (ha : a < caller.nextReg) (hne : a ≠ d) :
    .reg a ∈ call.args := by
  unfold subst at hs
  match hr : (copy caller call callee).returns with
  | [] => simp [resultRead, hd, hr, Operand.replaceReg] at hs
  | _ :: _ :: _ =>
      simp only [resultRead, hd, hr, id_eq, Operand.reg.injEq] at hs
      exact absurd hs.symm hne
  | [(l, v)] =>
      simp only [resultRead, hd, hr, Operand.replaceReg, if_true] at hs
      have hmem : (l, v) ∈ (copy caller call callee).returns := by rw [hr]; simp
      obtain ⟨k, b₀, value, -, -, -, hv⟩ := Splice.mem_returns_iff.1 hmem
      rw [hs] at hv
      cases value with
      | none => cases hv
      | some o =>
          cases o with
          | reg r =>
              have hr : caller.nextReg + r = a := Operand.reg.inj hv
              exact absurd ha (Nat.not_lt.2 (hr ▸ Nat.le_add_right _ _))
          | arg index =>
              simp only [copy, Splice.operand, Option.map_some, Option.getD_some] at hv
              cases harg : call.args[index]? with
              | none => simp [harg] at hv
              | some op =>
                  have hop : op = .reg a := by simpa [harg] using hv
                  exact hop ▸ List.mem_of_getElem? harg
          | _ => cases hv

/-- The names of the blocks that a block `l` of the caller is entered from. -/
def follow (caller : Func) (pos : Position) (b : Block) (l : Label) : Label → Label :=
  if l ∈ b.terminator.targets then Func.relabel pos.label caller.nextLabel else id

/-- What becomes of an instruction of the caller in block `l`. -/
def callerInstr (caller callee : Func) (call : Call) (pos : Position) (b : Block) (l : Label)
    (i : Instr) : Instr :=
  (i.mapPhiLabels (follow caller pos b l)).mapOperands (subst caller callee call)

theorem followTail_eq (l : Label) (is : List Instr) (t : Terminator) :
    Func.followTail b.terminator.targets pos.label caller.nextLabel (l, ⟨is, t⟩) =
      (l, ⟨is.map (Instr.mapPhiLabels (follow caller pos b l)), t⟩) := by
  have hid : Instr.mapPhiLabels id = id := funext Instr.mapPhiLabels_id
  by_cases h : l ∈ b.terminator.targets <;>
    simp [Func.followTail, follow, h, Block.mapPhiLabels, hid]

theorem ne_nextLabel {l : Label} {b₀ : Block} (h : caller.body.find? l = some b₀) :
    l ≠ caller.nextLabel :=
  (Func.nextLabel_ne (by rw [h]; rfl)).symm

theorem bindResult_of_ne {l : Label} (h : l ≠ caller.nextLabel) (is : List Instr)
    (t : Terminator) :
    (bindResult call (copy caller call callee).returns caller.nextLabel (l, ⟨is, t⟩)).2 =
      ⟨is.map (Instr.mapOperands (subst caller callee call)),
        t.mapOperands (subst caller callee call)⟩ := by
  simp [bindResult, h, Block.mapOperands]

namespace Spliced

theorem find?_of_mem (h : Spliced caller callee f call pos b) {e : Label × Block}
    (he : e ∈ joined caller call callee pos b) :
    f.body.find? e.1 =
      some (bindResult call (copy caller call callee).returns caller.nextLabel e).2 :=
  Func.find?_of_mem_entries (h.entries.mem_iff.2 (List.mem_map_of_mem he))

/-- A block of the caller in its new form. -/
theorem find?_caller (h : Spliced caller callee f call pos b) {l : Label} {is : List Instr}
    {t : Terminator}
    (he : (l, ⟨is, t⟩) ∈
      (pos.label, ⟨b.instrs.take pos.index, .jump ((copy caller call callee).label .entry)⟩) ::
        (caller.nextLabel, ⟨b.instrs.drop (pos.index + 1), b.terminator⟩) ::
          (caller.body.erase pos.label).entries) :
    f.body.find? l = some (bindResult call (copy caller call callee).returns caller.nextLabel
      (l, ⟨is.map (Instr.mapPhiLabels (follow caller pos b l)), t⟩)).2 := by
  have hfind := h.find?_of_mem (List.mem_append_right _ (List.mem_map_of_mem he))
  rw [followTail_eq] at hfind
  exact hfind

/-- The block of the call ends with a jump to the copy. -/
theorem find?_head (h : Spliced caller callee f call pos b) :
    f.body.find? pos.label =
      some ⟨(b.instrs.take pos.index).map (callerInstr caller callee call pos b pos.label),
        .jump ((copy caller call callee).label .entry)⟩ := by
  have hfind := h.find?_caller List.mem_cons_self
  rw [bindResult_of_ne (ne_nextLabel h.block), List.map_map] at hfind
  exact hfind

/-- What stood behind the call, with the phi that merges several returns in front. -/
theorem find?_tail (h : Spliced caller callee f call pos b) :
    f.body.find? caller.nextLabel =
      some ⟨(resultPhis call (copy caller call callee).returns).map .phi ++
        (b.instrs.drop (pos.index + 1)).map
          (callerInstr caller callee call pos b caller.nextLabel),
        b.terminator.mapOperands (subst caller callee call)⟩ := by
  rw [h.find?_caller (List.mem_cons_of_mem _ List.mem_cons_self)]
  simp only [bindResult, if_true, Block.mapOperands, List.map_map]
  rfl

theorem find?_other (h : Spliced caller callee f call pos b) {l : Label} {b₀ : Block}
    (hl : l ≠ pos.label) (hb₀ : caller.body.find? l = some b₀) :
    f.body.find? l =
      some ⟨b₀.instrs.map (callerInstr caller callee call pos b l),
        b₀.terminator.mapOperands (subst caller callee call)⟩ := by
  have herase : (l, b₀) ∈ (caller.body.erase pos.label).entries :=
    OrderedMap.mem_entries_iff.2 (by rw [OrderedMap.find?_erase_of_ne _ hl, hb₀])
  have hfind := h.find?_caller (List.mem_cons_of_mem _ (List.mem_cons_of_mem _ herase))
  rw [bindResult_of_ne (ne_nextLabel hb₀), List.map_map] at hfind
  exact hfind

theorem instr?_pos (h : Spliced caller callee f call pos b) :
    caller.instr? pos = some (.call call) :=
  Func.instr?_eq_some_iff.2 ⟨b, h.block, h.call_at⟩

theorem dest_lt (h : Spliced caller callee f call pos b) {d : Nat} (hd : call.dest = some d) :
    d < caller.nextReg :=
  Func.lt_nextReg_of_mem_dests (Func.mem_dests_of_instr? h.instr?_pos hd)

/-- The copy does not read the result of the call. -/
theorem subst_copy (h : Spliced caller callee f call pos b)
    (hself : ∀ d, call.dest = some d → .reg d ∉ call.args) (op : Operand) :
    subst caller callee call ((copy caller call callee).operand op) =
      (copy caller call callee).operand op := by
  refine subst_of_ne ?_
  intro d hd heq
  cases op with
  | reg r =>
      have hr : caller.nextReg + r = d := Operand.reg.inj heq
      exact absurd (h.dest_lt hd) (Nat.not_lt.2 (hr ▸ Nat.le_add_right _ _))
  | arg index =>
      simp only [copy, Splice.operand] at heq
      cases harg : call.args[index]? with
      | none => simp [harg] at heq
      | some a =>
          have ha : a = .reg d := by simpa [harg] using heq
          exact hself d hd (ha ▸ List.mem_of_getElem? harg)
  | _ => cases heq

theorem find?_copy (h : Spliced caller callee f call pos b)
    (hself : ∀ d, call.dest = some d → .reg d ∉ call.args) {l : Label} {b₀ : Block}
    (hb₀ : callee.body.find? l = some b₀) :
    f.body.find? ((copy caller call callee).label l) =
      some ((copy caller call callee).block b₀) := by
  have hmem : ((copy caller call callee).label l, (copy caller call callee).block b₀) ∈
      (copy caller call callee).blocks :=
    List.mem_map_of_mem (f := fun e => ((copy caller call callee).label e.1,
      (copy caller call callee).block e.2)) (OrderedMap.mem_entries_iff.2 hb₀)
  have hne : (copy caller call callee).label l ≠ caller.nextLabel :=
    Nat.ne_of_gt (label_lt_of_mem_blocks hmem)
  have hfind := h.find?_of_mem (List.mem_append_left _ hmem)
  rw [bindResult_of_ne hne] at hfind
  rw [hfind]
  have hinstr : ∀ i, ((copy caller call callee).instr i).mapOperands (subst caller callee call) =
      (copy caller call callee).instr i := by
    intro i
    refine Instr.mapOperands_eq_self ?_
    intro op hop
    obtain ⟨o, -, rfl⟩ := List.mem_map.1 (by simpa [Splice.instr] using hop)
    exact h.subst_copy hself o
  have hterm : ((copy caller call callee).terminator b₀.terminator).mapOperands
      (subst caller callee call) = (copy caller call callee).terminator b₀.terminator := by
    refine Terminator.mapOperands_eq_self ?_
    intro op hop
    obtain ⟨o, rfl⟩ := Splice.exists_operand hop
    exact h.subst_copy hself o
  rw [Splice.block, List.map_map, hterm]
  simp [Function.comp_def, hinstr]

end Spliced

namespace Inlined

theorem dest_not_mem_args (h : Inlined caller callee f call pos b) {d : Reg}
    (hd : call.dest = some d) : .reg d ∉ call.args := fun hmem =>
  h.caller_strict.no_self_read pos call
    (Func.callAt_eq_ok_iff.2 ⟨b, h.block, h.call_at⟩) d hd
    (List.mem_filterMap.2 ⟨.reg d, List.mem_append_right _ hmem, rfl⟩)

theorem find?_copy (h : Inlined caller callee f call pos b) {l : Label} {b₀ : Block}
    (hb₀ : callee.body.find? l = some b₀) :
    f.body.find? ((copy caller call callee).label l) =
      some ((copy caller call callee).block b₀) :=
  h.toSpliced.find?_copy (fun _ => h.dest_not_mem_args) hb₀

end Inlined

end Inline

end KernelIR
