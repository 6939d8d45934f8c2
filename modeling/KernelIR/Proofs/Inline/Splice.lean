import KernelIR.Proofs.Body
import Mathlib

/-!
# The body that inlining leaves

The blocks of the spliced caller, up to their order: the copied blocks, the two halves of the
split block, and the caller's other blocks, all of them with the result of the call bound.
-/

namespace KernelIR

namespace Instr

@[simp] theorem mapOperands_id (i : Instr) : i.mapOperands id = i := by
  cases i with
  | call c =>
      have hc : c.callee.mapOperands id = c.callee := by cases c.callee <;> rfl
      simp [mapOperands, hc]
  | _ => simp [mapOperands]

end Instr

namespace Terminator

@[simp] theorem mapOperands_id (t : Terminator) : t.mapOperands id = t := by
  cases t <;> simp [mapOperands]

end Terminator

namespace Block

@[simp] theorem mapOperands_id (b : Block) : b.mapOperands id = b := by
  have h : Instr.mapOperands id = id := funext Instr.mapOperands_id
  simp [mapOperands, h]

end Block

namespace Splice

@[simp] theorem fst_blocks (s : Splice) :
    s.blocks.map (·.1) = s.callee.body.keys.map s.label := by
  simp [blocks, OrderedMap.keys]

theorem label_injOn (s : Splice) {k l : Label} (hk : k ∈ s.callee.body.keys)
    (h : s.label k = s.label l) : k = l :=
  (List.idxOf_inj hk).1 (Nat.add_left_cancel h)

theorem le_label (s : Splice) (l : Label) : s.labelBase ≤ s.label l :=
  Nat.le_add_right _ _

end Splice

namespace OrderedMap

theorem nodup_keys {α : Type} (m : OrderedMap Nat α) : m.keys.Nodup := by
  rw [keys, List.nodup_iff_pairwise_ne, List.pairwise_map]
  refine m.sorted.imp ?_
  intro a b hlt heq
  simp [heq, Std.ReflCmp.compare_self] at hlt

end OrderedMap

namespace Splice

theorem nodup_fst_blocks (s : Splice) : (s.blocks.map (·.1)).Nodup := by
  rw [fst_blocks]
  exact List.Nodup.map_on (fun k hk l _ h => s.label_injOn hk h) (OrderedMap.nodup_keys _)

end Splice

namespace Inline

/-- The copy of the callee that is put in the place of a call. -/
def copy (caller : Func) (call : Call) (callee : Func) : Splice :=
  ⟨callee, call.args, caller.nextReg, caller.nextLabel + 1, caller.nextLabel⟩

/-- The blocks of the caller with the copy in the place of the call, its result not yet bound. -/
def joined (caller : Func) (call : Call) (callee : Func) (pos : Position) (b : Block) :
    List (Label × Block) :=
  (copy caller call callee).blocks ++
    ((pos.label, ⟨b.instrs.take pos.index, .jump ((copy caller call callee).label .entry)⟩) ::
      (caller.nextLabel, ⟨b.instrs.drop (pos.index + 1), b.terminator⟩) ::
        (caller.body.erase pos.label).entries).map
      (Func.followTail b.terminator.targets pos.label caller.nextLabel)

/-- What is read in the place of the result, unless a phi defines it. -/
def resultRead (call : Call) (returns : List (Label × Operand)) : Operand → Operand :=
  match call.dest, returns with
  | some dest, [] => .replaceReg dest .undefined
  | some dest, [(_, value)] => .replaceReg dest value
  | _, _ => id

/-- The phi that defines the result, where there are several returns. -/
def resultPhis (call : Call) (returns : List (Label × Operand)) : List Phi :=
  match call.dest, returns with
  | some dest, _ :: _ :: _ => [⟨dest, call.ty, returns⟩]
  | _, _ => []

def bindResult (call : Call) (returns : List (Label × Operand)) (continuation : Label)
    (e : Label × Block) : Label × Block :=
  (e.1, ⟨(if e.1 = continuation then (resultPhis call returns).map .phi else []) ++
    (e.2.mapOperands (resultRead call returns)).instrs,
    (e.2.mapOperands (resultRead call returns)).terminator⟩)

theorem label_lt_of_mem_blocks {caller callee : Func} {call : Call} {e : Label × Block}
    (h : e ∈ (copy caller call callee).blocks) : caller.nextLabel < e.1 := by
  have hk : e.1 ∈ (copy caller call callee).blocks.map (·.1) := List.mem_map_of_mem h
  rw [Splice.fst_blocks] at hk
  obtain ⟨l, -, hl⟩ := List.mem_map.1 hk
  rw [← hl]
  exact (copy caller call callee).le_label l

theorem setTerminator_openedBlocks (f : Func) (pos : Position) (b : Block) (t : Terminator)
    (hb : f.body.find? pos.label = some b) :
    (Func.openedBlocks f pos b).map (fun e =>
      (e.1, if e.1 = pos.label then { e.2 with terminator := t } else e.2)) =
    ((pos.label, ⟨b.instrs.take pos.index, t⟩) ::
      (f.nextLabel, ⟨b.instrs.drop (pos.index + 1), b.terminator⟩) ::
        (f.body.erase pos.label).entries).map
      (Func.followTail b.terminator.targets pos.label f.nextLabel) := by
  have hne : f.nextLabel ≠ pos.label := Func.nextLabel_ne (by rw [hb]; rfl)
  rw [Func.openedBlocks, List.map_map]
  simp only [List.map_cons, List.cons.injEq]
  refine ⟨?_, ?_, List.map_congr_left ?_⟩
  · by_cases h : pos.label ∈ b.terminator.targets <;>
      simp [Func.followTail, h, Block.mapPhiLabels]
  · simp [hne, Func.followTail]
  · intro e he
    have hne' : e.1 ≠ pos.label := OrderedMap.ne_of_mem_erase he
    simp [hne', Func.followTail]

/-- The copied blocks and the two halves, before the result of the call is bound. -/
theorem entries_joined {caller opened : Func} {pos : Position} {b : Block} (callee : Func)
    (call : Call)
    (hp : opened.body.entries.Perm (Func.openedBlocks caller pos b))
    (hb : caller.body.find? pos.label = some b) :
    ((opened.insertBlocks (copy caller call callee).blocks).setTerminator pos.label
      (.jump ((copy caller call callee).label .entry))).body.entries.Perm
      (joined caller call callee pos b) := by
  have hlt : pos.label < caller.nextLabel :=
    Func.lt_nextLabel (OrderedMap.mem_keys_iff.2 (by rw [hb]; rfl))
  have hfresh : ∀ e ∈ (copy caller call callee).blocks, opened.body.find? e.1 = none := by
    intro e he
    rw [Option.eq_none_iff_forall_ne_some]
    intro b' hb'
    have hk : e.1 ∈ opened.body.keys := OrderedMap.mem_keys_iff.2 (by rw [hb']; rfl)
    have hle := Func.lt_nextLabel hk
    rw [Func.nextLabel_opened hp hb] at hle
    exact absurd (label_lt_of_mem_blocks he) (Nat.not_lt.2 (Nat.le_of_lt_succ hle))
  have hins := (Func.entries_insertBlocks (copy caller call callee).nodup_fst_blocks hfresh).trans
    (hp.append_left _)
  rw [Func.setTerminator, OrderedMap.entries_modify]
  refine (hins.map _).trans (List.Perm.of_eq ?_)
  rw [List.map_append, setTerminator_openedBlocks caller pos b _ hb, joined]
  refine congrArg (· ++ _) ?_
  rw [List.map_congr_left (g := id) fun e he => ?_, List.map_id]
  have hne : e.1 ≠ pos.label :=
    Nat.ne_of_gt (Nat.lt_trans hlt (label_lt_of_mem_blocks he))
  simp [hne]

theorem bindResult_eq (f : Func) (dest : Reg) (ty : Ty) (cont : Label)
    (returns : List (Label × Operand)) :
    f.bindResult dest ty cont returns =
      { f with body := (f.bindResult dest ty cont returns).body } := by
  match returns with
  | [] | [(_, _)] | _ :: _ :: _ => rfl

theorem entries_bindResult (f : Func) (call : Call) (dest : Reg) (hd : call.dest = some dest)
    (returns : List (Label × Operand)) (cont : Label) :
    (f.bindResult dest call.ty cont returns).body.entries =
      f.body.entries.map (bindResult call returns cont) := by
  match returns with
  | [] | [(_, _)] =>
    refine List.map_congr_left ?_
    intro e _
    simp [bindResult, resultPhis, resultRead, hd]
  | e₁ :: e₂ :: es =>
    rw [Func.bindResult, Func.prependInstr, OrderedMap.entries_modify]
    · refine List.map_congr_left ?_
      intro e _
      by_cases h : e.1 = cont <;> simp [bindResult, resultPhis, resultRead, hd, h]
    · simp
    · simp

/-- The result of a splice, up to the order of its blocks. -/
theorem splice_eq_ok {caller callee f : Func} {call : Call} {pos : Position} {cont : Label}
    (h : splice caller call callee pos = .ok (cont, f)) (hcall : caller.callAt pos = .ok call) :
    ∃ b, caller.body.find? pos.label = some b ∧ b.instrs[pos.index]? = some (.call call) ∧
      cont = caller.nextLabel ∧ f = { caller with body := f.body } ∧
      f.body.entries.Perm ((joined caller call callee pos b).map
        (bindResult call (copy caller call callee).returns cont)) := by
  obtain ⟨b, hb, hi⟩ := Func.callAt_eq_ok_iff.1 hcall
  rw [splice] at h
  split at h
  · cases h
  · next c split hs =>
      split at h
      · cases h
      · next i opened hr =>
          obtain ⟨hp, rfl, hopened⟩ := Func.entries_opened hs hr hb
          have hjoin := entries_joined callee call hp hb
          rw [Func.nextLabel_opened hp hb] at h
          refine ⟨b, hb, hi, ?_⟩
          cases hd : call.dest with
          | none =>
              simp only [hd, Except.ok.injEq, Prod.mk.injEq] at h
              obtain ⟨rfl, rfl⟩ := h
              refine ⟨rfl, by rw [hopened]; rfl, hjoin.trans (List.Perm.of_eq ?_)⟩
              have hid : bindResult call (copy caller call callee).returns caller.nextLabel = id :=
                funext fun e => by simp [bindResult, resultPhis, resultRead, hd]
              rw [hid, List.map_id]
          | some dest =>
              simp only [hd, Except.ok.injEq, Prod.mk.injEq] at h
              obtain ⟨rfl, rfl⟩ := h
              refine ⟨rfl, ?_, ?_⟩
              · rw [bindResult_eq, hopened]
                rfl
              · rw [entries_bindResult _ call dest hd]
                exact hjoin.map _

/-- What holds of a site where a call can be inlined. -/
structure Inlinable (m : Module) (site : CallSite) (caller : Func) (call : Call) (id : FuncId)
    (callee : Func) : Prop where
  caller_live : m.funcs.get? site.caller = some caller
  call_at : caller.callAt site.pos = .ok call
  resolves : call.callee.resolve? = some id
  not_recursive : id ≠ site.caller
  callee_live : m.funcs.get? id = some callee
  defined : callee.isDeclaration = false
  arity : callee.params.length = call.args.length
  callee_ssa : callee.checkSSA = .ok ()
  labels : ∀ l ∈ Label.entry :: callee.mentionedLabels, callee.body.contains l = true

theorem target_eq_ok {m : Module} {site : CallSite} {caller callee : Func} {call : Call}
    (h : target m site = .ok (caller, call, callee)) :
    ∃ id, Inlinable m site caller call id callee := by
  rw [target] at h
  split at h
  · cases h
  · next f hf =>
      split at h
      · cases h
      · next c hc =>
          split at h
          · cases h
          · next id hid =>
              split_ifs at h with hrec
              split at h
              · cases h
              · next g hg =>
                  split_ifs at h with hdecl harity
                  split at h
                  · cases h
                  · next hssa =>
                      split at h
                      · cases h
                      · next hl =>
                          cases h
                          refine ⟨id, hf, hc, hid, hrec, hg, by simpa using hdecl,
                            not_not.1 harity, hssa, fun l hmem => ?_⟩
                          simpa using List.find?_eq_none.1 hl l hmem

theorem Inlinable.target_eq {m : Module} {site : CallSite} {caller callee : Func} {call : Call}
    {id : FuncId} (h : Inlinable m site caller call id callee) :
    target m site = .ok (caller, call, callee) := by
  have hl : (Label.entry :: callee.mentionedLabels).find? (fun l => !callee.body.contains l) =
      none := List.find?_eq_none.2 fun l hl => by simp [h.labels l hl]
  simp only [target, h.caller_live, h.call_at, h.resolves, h.not_recursive, h.callee_live,
    h.defined, h.arity, h.callee_ssa, hl, if_false, ne_eq, not_true, Bool.false_eq_true]

/-- What is reported of a site where no call can be inlined. -/
theorem target_eq_error {m : Module} {site : CallSite} {e : Failure}
    (h : target m site = .error e) :
    (∃ e', e = .illFormed e') ∨ (∃ caller obstacle, e = .notInlinable caller obstacle) ∨
      ∃ l, e = .missingLabel l := by
  rw [target] at h
  repeat' split at h
  all_goals cases h
  all_goals simp

theorem Inlinable.inlineAt_eq {m : Module} {site : CallSite} {caller callee f : Func} {call : Call}
    {id : FuncId} {cont : Label} (h : Inlinable m site caller call id callee)
    (hs : splice caller call callee site.pos = .ok (cont, f)) :
    m.inlineAt site = .ok (cont, m.setFunc site.caller f) := by
  simp only [Module.inlineAt, h.target_eq, hs]

end Inline

namespace Module

/-- What a successful inlining did: only the caller changes. -/
theorem inlineAt_eq_ok {m m' : Module} {site : CallSite} {cont : Label}
    (h : m.inlineAt site = .ok (cont, m')) :
    ∃ caller call id callee f, Inline.Inlinable m site caller call id callee ∧
      Inline.splice caller call callee site.pos = .ok (cont, f) ∧
        m' = m.setFunc site.caller f := by
  rw [inlineAt] at h
  split at h
  · cases h
  · next caller call callee ht =>
      obtain ⟨id, hi⟩ := Inline.target_eq_ok ht
      split at h
      · cases h
      · next c f hs =>
          cases h
          exact ⟨caller, call, id, callee, f, hi, hs, rfl⟩

theorem inlineAt_eq_error {m : Module} {site : CallSite} {e : Failure}
    (h : m.inlineAt site = .error e) :
    (∃ e', e = .illFormed e') ∨ (∃ caller obstacle, e = .notInlinable caller obstacle) ∨
      ∃ l, e = .missingLabel l := by
  rw [inlineAt] at h
  split at h
  · next e' he =>
      cases h
      exact Inline.target_eq_error he
  · split at h <;> cases h
    exact Or.inl ⟨_, rfl⟩

theorem inlineAt_ne_outOfSteps (m : Module) (site : CallSite) :
    m.inlineAt site ≠ .error .outOfSteps := by
  intro h
  simpa using inlineAt_eq_error h

end Module

end KernelIR
