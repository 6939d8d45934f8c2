import KernelIR.Proofs.Inline.Splice
import Mathlib

/-!
# The calls of a spliced body

Inlining takes one call away and adds those of the callee, under the substitution of the
arguments.
-/

namespace KernelIR

theorem Callee.resolve?_mapOperands {callee : Callee} {g : Operand → Operand} {id : FuncId}
    (hg : g (.func id) = .func id) (h : callee.resolve? = some id) :
    (callee.mapOperands g).resolve? = some id := by
  cases callee with
  | direct f | cast f => exact h
  | indirect op =>
      cases op with
      | func f =>
          obtain rfl := Option.some.inj h
          rw [mapOperands, hg]
          rfl
      | _ => cases h

namespace Instr

@[simp] theorem isSome_call?_mapOperands (g : Operand → Operand) (i : Instr) :
    (i.mapOperands g).call?.isSome = i.call?.isSome := by
  cases i <;> rfl

@[simp] theorem isSome_call?_mapDest (g : Reg → Reg) (i : Instr) :
    (i.mapDest g).call?.isSome = i.call?.isSome := by
  cases i <;> rfl

@[simp] theorem isSome_call?_mapPhiLabels (g : Label → Label) (i : Instr) :
    (i.mapPhiLabels g).call?.isSome = i.call?.isSome := by
  cases i <;> rfl

end Instr

/-- The number of calls in a list of instructions. -/
def callCount (is : List Instr) : Nat := is.countP fun i => i.call?.isSome

@[simp] theorem callCount_append (is js : List Instr) :
    callCount (is ++ js) = callCount is + callCount js :=
  List.countP_append ..

theorem callCount_map {g : Instr → Instr} (h : ∀ i, (g i).call?.isSome = i.call?.isSome)
    (is : List Instr) : callCount (is.map g) = callCount is := by
  rw [callCount, List.countP_map]
  exact List.countP_congr fun i _ => by simp [h]

/-- A call splits the calls of its block into those before it and those behind it. -/
theorem callCount_eq_of_getElem? {is : List Instr} {n : Nat} {c : Call}
    (h : is[n]? = some (.call c)) :
    callCount is = callCount (is.take n) + 1 + callCount (is.drop (n + 1)) := by
  obtain ⟨hn, hc⟩ := List.getElem?_eq_some_iff.1 h
  conv_lhs => rw [← List.take_append_drop n is, List.drop_eq_getElem_cons hn, hc]
  simp [callCount, Instr.call?]
  omega

namespace Func

/-- `c` is one of the calls of `f`. -/
def HasCall (f : Func) (c : Call) : Prop := ∃ e ∈ f.body.entries, .call c ∈ e.2.instrs

theorem hasCall_iff {f : Func} {c : Call} : f.HasCall c ↔ ∃ pos, (pos, c) ∈ f.calls := by
  simp only [mem_calls_iff, callAt_eq_ok_iff]
  constructor
  · rintro ⟨⟨l, b⟩, hb, hc⟩
    obtain ⟨n, hn⟩ := List.mem_iff_getElem?.1 hc
    exact ⟨⟨l, n⟩, b, find?_of_mem_entries hb, hn⟩
  · rintro ⟨pos, b, hb, hc⟩
    exact ⟨(pos.label, b), OrderedMap.mem_entries_iff.2 hb, List.mem_of_getElem? hc⟩

theorem hasCall_of_callAt {f : Func} {pos : Position} {c : Call} (h : f.callAt pos = .ok c) :
    f.HasCall c :=
  hasCall_iff.2 ⟨pos, mem_calls_iff.2 h⟩

theorem call_mem_followTail {targets : List Label} {old new : Label} {e : Label × Block}
    {c : Call} : .call c ∈ (followTail targets old new e).2.instrs ↔ .call c ∈ e.2.instrs := by
  by_cases h : e.1 ∈ targets
  · simp only [followTail, h, if_true, Block.mapPhiLabels, List.mem_map]
    constructor
    · rintro ⟨i, hi, heq⟩
      cases i <;> first | cases heq; exact hi | cases heq
    · exact fun hi => ⟨_, hi, rfl⟩
  · simp [followTail, h]

end Func

/-- The calls of a body, each weighted by its block. -/
def Func.weight (f : Func) (weight : Label → Nat) : Nat :=
  (f.body.entries.map fun e => callCount e.2.instrs * weight e.1).sum

def Func.callTotal (f : Func) : Nat := f.weight fun _ => 1

namespace Splice

theorem weight_blocks (s : Splice) (weight : Nat) {depth : Label → Nat}
    (h : ∀ e ∈ s.blocks, depth e.1 = weight) :
    (s.blocks.map fun e => callCount e.2.instrs * depth e.1).sum =
      s.callee.callTotal * weight := by
  rw [List.map_congr_left (g := fun e => callCount e.2.instrs * weight) fun e he => by rw [h e he]]
  rw [Func.callTotal, Func.weight, ← List.sum_map_mul_right, blocks, List.map_map]
  refine congrArg List.sum (List.map_congr_left fun e _ => ?_)
  have hc : callCount (s.block e.2).instrs = callCount e.2.instrs :=
    callCount_map (fun i => by simp [instr]) _
  simp [hc]

end Splice

namespace Inline

theorem callCount_followTail (targets : List Label) (old new : Label) (e : Label × Block) :
    callCount (Func.followTail targets old new e).2.instrs = callCount e.2.instrs := by
  by_cases h : e.1 ∈ targets
  · simp only [Func.followTail, h, if_true, Block.mapPhiLabels]
    exact callCount_map (fun i => by simp) _
  · simp [Func.followTail, h]

theorem callCount_bindResult (call : Call) (returns : List (Label × Operand)) (cont : Label)
    (e : Label × Block) : callCount (bindResult call returns cont e).2.instrs =
      callCount e.2.instrs := by
  have hphi : ∀ ps : List Phi, callCount (ps.map .phi) = 0 := by
    intro ps
    simp [callCount, Instr.call?]
  have hmap : callCount (e.2.mapOperands (resultRead call returns)).instrs =
      callCount e.2.instrs := callCount_map (fun i => by simp) _
  by_cases h : e.1 = cont <;> simp [bindResult, h, hphi, hmap]

/-- A splice removes a call of its block, keeps all others of the caller, and adds those of the
callee. -/
theorem weight_splice {caller callee f : Func} {call : Call} {pos : Position} {cont : Label}
    (h : splice caller call callee pos = .ok (cont, f)) (hcall : caller.callAt pos = .ok call)
    (old new : Label → Nat) (inner : Nat)
    (hold : ∀ l, caller.body.contains l = true → new l = old l)
    (htail : new caller.nextLabel = old pos.label)
    (hnew : ∀ l, caller.nextLabel < l → new l = inner) :
    f.weight new + old pos.label = caller.weight old + callee.callTotal * inner := by
  obtain ⟨b, hb, hi, rfl, -, hperm⟩ := splice_eq_ok h hcall
  have hcount : (fun e : Label × Block => callCount e.2.instrs * new e.1) ∘
      bindResult call (copy caller call callee).returns caller.nextLabel =
        fun e => callCount e.2.instrs * new e.1 :=
    funext fun e => by simp only [Function.comp_apply, callCount_bindResult]; rfl
  have hfollow : (fun e : Label × Block => callCount e.2.instrs * new e.1) ∘
      Func.followTail b.terminator.targets pos.label caller.nextLabel =
        fun e => callCount e.2.instrs * new e.1 :=
    funext fun e => by simp only [Function.comp_apply, callCount_followTail]; rfl
  have hcopy : ((copy caller call callee).blocks.map fun e =>
      callCount e.2.instrs * new e.1).sum = callee.callTotal * inner :=
    (copy caller call callee).weight_blocks inner
      fun e he => hnew e.1 (label_lt_of_mem_blocks he)
  have hrest : ((caller.body.erase pos.label).entries.map fun e =>
      callCount e.2.instrs * new e.1) =
        (caller.body.erase pos.label).entries.map fun e => callCount e.2.instrs * old e.1 :=
    List.map_congr_left fun e he => by
      have hk : e.1 ∈ caller.body.keys :=
        List.mem_map_of_mem (OrderedMap.mem_of_mem_erase he)
      rw [hold e.1 (OrderedMap.contains_iff.2 hk)]
  have hhead : new pos.label = old pos.label :=
    hold _ (by rw [OrderedMap.contains, hb]; rfl)
  have hf := (hperm.map fun e => callCount e.2.instrs * new e.1).sum_eq
  have hg := ((OrderedMap.entries_perm_of_find? hb).map fun e =>
    callCount e.2.instrs * old e.1).sum_eq
  rw [List.map_map, hcount, joined, List.map_append, List.sum_append, List.map_map, hfollow,
    hcopy, List.map_cons, List.map_cons, hrest, List.sum_cons, List.sum_cons] at hf
  rw [List.map_cons, List.sum_cons] at hg
  rw [Func.weight, Func.weight, hf, hg, callCount_eq_of_getElem? hi]
  simp only [hhead, htail]
  change callee.callTotal * inner + _ + _ = _
  ring

theorem call_mem_bindResult {call c : Call} {returns : List (Label × Operand)} {cont : Label}
    {e : Label × Block} : .call c ∈ (bindResult call returns cont e).2.instrs ↔
      ∃ i ∈ e.2.instrs, i.mapOperands (resultRead call returns) = .call c := by
  have hphi : ∀ is : List Instr, (.call c ∈
      (if e.1 = cont then (resultPhis call returns).map .phi else []) ++ is) ↔ .call c ∈ is := by
    intro is
    by_cases h : e.1 = cont <;> simp [h]
  rw [bindResult, hphi]
  simp [Block.mapOperands]

/-- The calls of a spliced caller are its own, in blocks that stand for theirs, and those of the
copy, in new blocks. -/
theorem call_mem_splice {caller callee f : Func} {call c : Call} {pos : Position} {cont : Label}
    (h : splice caller call callee pos = .ok (cont, f)) (hcall : caller.callAt pos = .ok call)
    {e : Label × Block} (he : e ∈ f.body.entries) (hc : .call c ∈ e.2.instrs) :
    ∃ i, i.mapOperands (resultRead call (copy caller call callee).returns) = .call c ∧
      ((∃ e₀ ∈ caller.body.entries, ∃ c₀, .call c₀ ∈ e₀.2.instrs ∧ i = .call c₀ ∧
          (e.1 = e₀.1 ∨ e.1 = caller.nextLabel ∧ e₀.1 = pos.label)) ∨
        ∃ c₀, callee.HasCall c₀ ∧ i = (copy caller call callee).instr (.call c₀) ∧
          caller.nextLabel < e.1) := by
  obtain ⟨b, hb, -, -, -, hperm⟩ := splice_eq_ok h hcall
  obtain ⟨e, hmem, rfl⟩ := List.mem_map.1 (hperm.mem_iff.1 he)
  obtain ⟨i, hi, heq⟩ := call_mem_bindResult.1 hc
  refine ⟨i, heq, ?_⟩
  obtain ⟨c₁, rfl⟩ : ∃ c₁, i = .call c₁ := by cases i <;> first | exact ⟨_, rfl⟩ | cases heq
  have hsite : (pos.label, b) ∈ caller.body.entries := OrderedMap.mem_entries_iff.2 hb
  rcases List.mem_append.1 hmem with hmem | hmem
  · have hlt := label_lt_of_mem_blocks hmem
    obtain ⟨⟨l, b'⟩, hb', rfl⟩ := List.mem_map.1 hmem
    obtain ⟨i, hi, heq⟩ := List.mem_map.1 hi
    obtain ⟨c₀, rfl⟩ : ∃ c₀, i = .call c₀ := by cases i <;> first | exact ⟨_, rfl⟩ | cases heq
    exact Or.inr ⟨c₀, ⟨_, hb', hi⟩, heq.symm, hlt⟩
  · obtain ⟨e₀, he₀, rfl⟩ := List.mem_map.1 hmem
    refine Or.inl ?_
    rw [Func.call_mem_followTail] at hi
    rcases List.mem_cons.1 he₀ with rfl | he₀
    · exact ⟨_, hsite, c₁, List.mem_of_mem_take hi, rfl, Or.inl rfl⟩
    · rcases List.mem_cons.1 he₀ with rfl | he₀
      · exact ⟨_, hsite, c₁, List.mem_of_mem_drop hi, rfl, Or.inr ⟨rfl, rfl⟩⟩
      · exact ⟨e₀, OrderedMap.mem_of_mem_erase he₀, c₁, hi, rfl, Or.inl rfl⟩

theorem hasCall_splice {caller callee f : Func} {call c : Call} {pos : Position} {cont : Label}
    (h : splice caller call callee pos = .ok (cont, f)) (hcall : caller.callAt pos = .ok call)
    (hc : f.HasCall c) :
    ∃ i, i.mapOperands (resultRead call (copy caller call callee).returns) = .call c ∧
      ((∃ c₀, caller.HasCall c₀ ∧ i = .call c₀) ∨
        ∃ c₀, callee.HasCall c₀ ∧ i = (copy caller call callee).instr (.call c₀)) := by
  obtain ⟨e, he, hc⟩ := hc
  obtain ⟨i, heq, ⟨e₀, he₀, c₀, hc₀, hi, -⟩ | ⟨c₀, hc₀, hi, -⟩⟩ := call_mem_splice h hcall he hc
  · exact ⟨i, heq, Or.inl ⟨c₀, ⟨e₀, he₀, hc₀⟩, hi⟩⟩
  · exact ⟨i, heq, Or.inr ⟨c₀, hc₀, hi⟩⟩

/-- Each call of the callee is one of the spliced caller. -/
theorem exists_hasCall_splice {caller callee f : Func} {call c₀ : Call} {pos : Position}
    {cont : Label} (h : splice caller call callee pos = .ok (cont, f))
    (hcall : caller.callAt pos = .ok call) (hc : callee.HasCall c₀) : ∃ c, f.HasCall c := by
  obtain ⟨b, -, -, -, -, hperm⟩ := splice_eq_ok h hcall
  obtain ⟨⟨l, b'⟩, hb', hc⟩ := hc
  refine ⟨_, _, hperm.mem_iff.2 (List.mem_map_of_mem (List.mem_append_left _
    (List.mem_map_of_mem hb'))), call_mem_bindResult.2 ⟨_, List.mem_map_of_mem hc, rfl⟩⟩

theorem resultRead_func (call : Call) (returns : List (Label × Operand)) (id : FuncId) :
    resultRead call returns (.func id) = .func id := by
  unfold resultRead
  cases call.dest with
  | none => rfl
  | some r => rcases returns with _ | ⟨e, _ | ⟨e', es⟩⟩ <;> simp [Operand.replaceReg]

theorem resolve?_of_copy {caller callee : Func} {call c c₀ : Call} {id : FuncId}
    (hc : ((copy caller call callee).instr (.call c₀)).mapOperands
      (resultRead call (copy caller call callee).returns) = .call c)
    (h : c₀.callee.resolve? = some id) : c.callee.resolve? = some id := by
  have hcallee : c.callee = (c₀.callee.mapOperands (copy caller call callee).operand).mapOperands
      (resultRead call (copy caller call callee).returns) := by
    simp only [Splice.instr, Instr.mapDest, Instr.mapOperands, Instr.mapPhiLabels,
      Instr.call.injEq] at hc
    rw [← hc]
  rw [hcallee]
  exact Callee.resolve?_mapOperands (resultRead_func _ _ id) (Callee.resolve?_mapOperands rfl h)

theorem resolve?_of_mapOperands {call c c₀ : Call} {returns : List (Label × Operand)} {id : FuncId}
    (hc : (Instr.call c₀).mapOperands (resultRead call returns) = .call c)
    (h : c₀.callee.resolve? = some id) : c.callee.resolve? = some id := by
  have hcallee : c.callee = c₀.callee.mapOperands (resultRead call returns) := by
    simp only [Instr.mapOperands, Instr.call.injEq] at hc
    rw [← hc]
  rw [hcallee]
  exact Callee.resolve?_mapOperands (resultRead_func _ _ id) h

/-- The calls of the caller, but for the one that is inlined, name the functions that they named. -/
theorem exists_resolved_splice {caller callee f : Func} {call c₀ : Call} {pos : Position}
    {cont : Label} {id : FuncId} (h : splice caller call callee pos = .ok (cont, f))
    (hcall : caller.callAt pos = .ok call) (hc₀ : caller.HasCall c₀)
    (hid : c₀.callee.resolve? = some id) (hne : call.callee.resolve? ≠ some id) :
    ∃ c, f.HasCall c ∧ c.callee.resolve? = some id := by
  obtain ⟨b, hb, hi, -, -, hperm⟩ := splice_eq_ok h hcall
  obtain ⟨e₀, he₀, hc₀⟩ := hc₀
  have hkept : ∃ e ∈ (pos.label, ⟨b.instrs.take pos.index,
        .jump ((copy caller call callee).label .entry)⟩) ::
      (caller.nextLabel, ⟨b.instrs.drop (pos.index + 1), b.terminator⟩) ::
        (caller.body.erase pos.label).entries, Instr.call c₀ ∈ e.2.instrs := by
    by_cases hlabel : e₀.1 = pos.label
    · obtain rfl : e₀.2 = b :=
        Option.some.inj ((Func.find?_of_mem_entries he₀).symm.trans (hlabel ▸ hb))
      obtain ⟨hn, heq⟩ := List.getElem?_eq_some_iff.1 hi
      rw [← List.take_append_drop pos.index e₀.2.instrs, List.drop_eq_getElem_cons hn, heq,
        List.mem_append, List.mem_cons, Instr.call.injEq] at hc₀
      rcases hc₀ with hc₀ | rfl | hc₀
      · exact ⟨_, List.mem_cons_self, hc₀⟩
      · exact absurd hid hne
      · exact ⟨_, List.mem_cons_of_mem _ List.mem_cons_self, hc₀⟩
    · exact ⟨e₀, List.mem_cons_of_mem _ (List.mem_cons_of_mem _
        (OrderedMap.mem_erase_of_ne he₀ hlabel)), hc₀⟩
  obtain ⟨e, he, hc⟩ := hkept
  exact ⟨_, ⟨_, hperm.mem_iff.2 (List.mem_map_of_mem (List.mem_append_right _
    (List.mem_map_of_mem he))), call_mem_bindResult.2 ⟨_, Func.call_mem_followTail.2 hc, rfl⟩⟩,
    resolve?_of_mapOperands rfl hid⟩

/-- A call in a body can be spliced. -/
theorem exists_splice {caller : Func} {call : Call} {pos : Position} (callee : Func)
    (hcall : caller.callAt pos = .ok call) :
    ∃ cont f, splice caller call callee pos = .ok (cont, f) := by
  obtain ⟨b, hb, hi⟩ := Func.callAt_eq_ok_iff.1 hcall
  obtain ⟨split, i, opened, hs, hr⟩ := Func.exists_opened hb hi
  rw [splice, hs]
  dsimp only
  rw [hr]
  cases call.dest <;> exact ⟨_, _, rfl⟩

end Inline

end KernelIR
