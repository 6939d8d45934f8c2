import KernelIR.CallCast
import KernelIR.Proofs.Inline.Blocks
import KernelIR.Proofs.Inline.Calls
import KernelIR.Proofs.Verification
import Mathlib

/-!
# The code of a body

The instructions and the operands of terminators of a body, up to their order and without the
labels that phis name.  What a body defines and reads is a matter of its code, and each edit has
one lemma that says what it does to the code.
-/

namespace KernelIR

namespace Instr

/-- The instruction without the labels that it names. -/
def bare (i : Instr) : Instr := i.mapPhiLabels fun _ => .entry

@[simp] theorem bare_mapPhiLabels (g : Label → Label) (i : Instr) :
    (i.mapPhiLabels g).bare = i.bare := by
  cases i <;> simp [bare, mapPhiLabels]

@[simp] theorem bare_mapOperands (g : Operand → Operand) (i : Instr) :
    (i.mapOperands g).bare = i.bare.mapOperands g := by
  cases i <;> simp [bare, mapPhiLabels, mapOperands]

@[simp] theorem bare_mapDest (g : Reg → Reg) (i : Instr) :
    (i.mapDest g).bare = i.bare.mapDest g := by
  cases i <;> rfl

@[simp] theorem bare_call (c : Call) : (call c).bare = call c := rfl

@[simp] theorem dest?_bare (i : Instr) : i.bare.dest? = i.dest? :=
  dest?_mapPhiLabels _ i

@[simp] theorem operands_bare (i : Instr) : i.bare.operands = i.operands :=
  operands_mapPhiLabels _ i

@[simp] theorem mentions_bare (i : Instr) : i.bare.mentions = i.mentions := by
  cases i <;> simp [bare, mapPhiLabels, mentions, operands]

@[simp] theorem call?_bare (i : Instr) : i.bare.call? = i.call? := by
  cases i <;> rfl

theorem bare_eq_call_iff {i : Instr} {c : Call} : i.bare = call c ↔ i = call c := by
  cases i <;> simp [bare, mapPhiLabels]

end Instr

/-- The instructions of blocks, without the labels of phis. -/
def codeOf (es : List (Label × Block)) : List Instr := es.flatMap fun e => e.2.instrs.map Instr.bare

def exitsOf (es : List (Label × Block)) : List Operand :=
  es.flatMap fun e => e.2.terminator.operands

@[simp] theorem codeOf_nil : codeOf [] = [] := rfl

@[simp] theorem codeOf_cons (e : Label × Block) (es : List (Label × Block)) :
    codeOf (e :: es) = e.2.instrs.map Instr.bare ++ codeOf es := rfl

@[simp] theorem codeOf_append (es es' : List (Label × Block)) :
    codeOf (es ++ es') = codeOf es ++ codeOf es' :=
  List.flatMap_append

@[simp] theorem exitsOf_nil : exitsOf [] = [] := rfl

@[simp] theorem exitsOf_cons (e : Label × Block) (es : List (Label × Block)) :
    exitsOf (e :: es) = e.2.terminator.operands ++ exitsOf es := rfl

@[simp] theorem exitsOf_append (es es' : List (Label × Block)) :
    exitsOf (es ++ es') = exitsOf es ++ exitsOf es' :=
  List.flatMap_append

theorem mem_codeOf {es : List (Label × Block)} {i : Instr} :
    i ∈ codeOf es ↔ ∃ e ∈ es, ∃ j ∈ e.2.instrs, j.bare = i := by
  simp [codeOf]

theorem mem_exitsOf {es : List (Label × Block)} {op : Operand} :
    op ∈ exitsOf es ↔ ∃ e ∈ es, op ∈ e.2.terminator.operands := by
  simp [exitsOf]

/-- An edit of the instructions alone, block by block. -/
theorem codeOf_map {g : Instr → Instr} {h : Label × Block → Label × Block}
    {es : List (Label × Block)}
    (hh : ∀ e ∈ es, (h e).2.instrs.map Instr.bare = (e.2.instrs.map Instr.bare).map g) :
    codeOf (es.map h) = (codeOf es).map g := by
  rw [codeOf, codeOf, List.flatMap_map, List.map_flatMap]
  exact List.flatMap_congr hh

theorem exitsOf_map {g : Operand → Operand} {h : Label × Block → Label × Block}
    {es : List (Label × Block)}
    (hh : ∀ e ∈ es, (h e).2.terminator.operands = e.2.terminator.operands.map g) :
    exitsOf (es.map h) = (exitsOf es).map g := by
  rw [exitsOf, exitsOf, List.flatMap_map, List.map_flatMap]
  exact List.flatMap_congr hh

theorem OrderedMap.modify_eq_insert {κ α : Type} [Ord κ] [Std.TransOrd κ] [Std.LawfulEqOrd κ]
    [DecidableEq κ] {m : OrderedMap κ α} {k : κ} {v : α} (h : m.find? k = some v) (f : α → α) :
    m.modify k f = m.insert k (f v) := by
  refine ext_find? fun k' => ?_
  by_cases hk : k' = k
  · rw [hk, find?_modify_self, h, find?_insert_self]
    rfl
  · rw [find?_modify_of_ne _ hk, find?_insert_of_ne _ hk]

namespace Func

def code (f : Func) : List Instr := codeOf f.body.entries

/-- The operands of terminators. -/
def exits (f : Func) : List Operand := exitsOf f.body.entries

theorem code_perm {f : Func} {es : List (Label × Block)} (h : f.body.entries.Perm es) :
    f.code.Perm (codeOf es) :=
  h.flatMap_right _

theorem exits_perm {f : Func} {es : List (Label × Block)} (h : f.body.entries.Perm es) :
    f.exits.Perm (exitsOf es) :=
  h.flatMap_right _

theorem dests_eq_code (f : Func) : f.dests = f.code.filterMap Instr.dest? := by
  have h : Instr.dest? ∘ Instr.bare = Instr.dest? := funext Instr.dest?_bare
  simp only [dests, OrderedMap.values, code, codeOf, List.flatMap_map, List.filterMap_flatMap,
    List.filterMap_map, h]
  rfl

theorem mem_mentions_iff {f : Func} {op : Operand} :
    op ∈ f.mentions ↔ op ∈ f.code.flatMap Instr.mentions ∨ op ∈ f.exits := by
  rw [mentions, OrderedMap.values, List.flatMap_map, code, exits]
  simp only [List.mem_flatMap, mem_codeOf, mem_exitsOf, Block.mentions, List.mem_append]
  constructor
  · rintro ⟨e, he, ⟨i, hi, hop⟩ | hop⟩
    · exact Or.inl ⟨i.bare, ⟨e, he, i, hi, rfl⟩, by rwa [Instr.mentions_bare]⟩
    · exact Or.inr ⟨e, he, hop⟩
  · rintro (⟨-, ⟨e, he, i, hi, rfl⟩, hop⟩ | ⟨e, he, hop⟩)
    · exact ⟨e, he, Or.inl ⟨i, hi, by rwa [Instr.mentions_bare] at hop⟩⟩
    · exact ⟨e, he, Or.inr hop⟩

theorem hasCall_iff_code {f : Func} {c : Call} : f.HasCall c ↔ .call c ∈ f.code := by
  simp [HasCall, code, mem_codeOf, Instr.bare_eq_call_iff]

/-- The calls of a body, without their places. -/
theorem map_calls_eq_code (f : Func) : f.calls.map (·.2) = f.code.filterMap Instr.call? := by
  have hcall : Instr.call? ∘ Instr.bare = Instr.call? := funext Instr.call?_bare
  simp only [calls, instrs, code, codeOf, List.filterMap_flatMap, List.filterMap_map, hcall,
    List.map_flatMap, List.map_filterMap]
  refine List.flatMap_congr fun e _ => ?_
  conv_rhs => rw [← List.zipIdx_map_fst 0 e.2.instrs, List.filterMap_map]
  refine List.filterMap_congr fun p _ => ?_
  simp [Function.comp_def]

theorem hasCall_iff_mem_calls {f : Func} {c : Call} : f.HasCall c ↔ c ∈ f.calls.map (·.2) := by
  simp [hasCall_iff]

theorem map_bare_followTail (targets : List Label) (old new : Label) (e : Label × Block) :
    (followTail targets old new e).2.instrs.map Instr.bare = e.2.instrs.map Instr.bare := by
  by_cases h : e.1 ∈ targets <;> simp [followTail, h, Block.mapPhiLabels]

theorem code_followTail (targets : List Label) (old new : Label) (es : List (Label × Block)) :
    codeOf (es.map (followTail targets old new)) = codeOf es := by
  rw [codeOf_map (g := id), List.map_id]
  intro e _
  rw [map_bare_followTail, List.map_id]

theorem exits_followTail (targets : List Label) (old new : Label) (es : List (Label × Block)) :
    exitsOf (es.map (followTail targets old new)) = exitsOf es := by
  rw [exitsOf_map (g := id), List.map_id]
  intro e _
  by_cases h : e.1 ∈ targets <;> simp [followTail, h, Block.mapPhiLabels]

/-- A body is its block at `label` and the others. -/
theorem code_eq_of_find? {f : Func} {label : Label} {b : Block}
    (hb : f.body.find? label = some b) :
    f.code.Perm (b.instrs.map Instr.bare ++ codeOf (f.body.erase label).entries) ∧
      f.exits.Perm (b.terminator.operands ++ exitsOf (f.body.erase label).entries) :=
  have hp := OrderedMap.entries_perm_of_find? hb
  ⟨code_perm hp, exits_perm hp⟩

theorem code_insert (f : Func) (label : Label) (b : Block) :
    ({ f with body := f.body.insert label b } : Func).code.Perm
        (b.instrs.map Instr.bare ++ codeOf (f.body.erase label).entries) ∧
      ({ f with body := f.body.insert label b } : Func).exits.Perm
        (b.terminator.operands ++ exitsOf (f.body.erase label).entries) :=
  ⟨code_perm (f := { f with body := f.body.insert label b }) (f.body.entries_insert_perm label b),
    exits_perm (f := { f with body := f.body.insert label b }) (f.body.entries_insert_perm label b)⟩

theorem map_bare_eq_of_getElem? {is : List Instr} {n : Nat} {i : Instr} (hi : is[n]? = some i) :
    is.map Instr.bare =
      (is.take n).map Instr.bare ++ i.bare :: (is.drop (n + 1)).map Instr.bare := by
  obtain ⟨hn, rfl⟩ := List.getElem?_eq_some_iff.1 hi
  rw [← List.map_cons, ← List.map_append, ← List.drop_eq_getElem_cons hn, List.take_append_drop]

theorem code_removeInstr {f g : Func} {pos : Position} {i : Instr}
    (h : f.removeInstr pos = .ok (i, g)) :
    f.code.Perm (i.bare :: g.code) ∧ f.exits.Perm g.exits := by
  cases hb : f.body.find? pos.label with
  | none => simp [removeInstr, hb] at h
  | some b =>
      obtain ⟨hi, rfl⟩ := removeInstr_eq_ok h hb
      obtain ⟨hcode, hexits⟩ := code_eq_of_find? hb
      obtain ⟨hcode', hexits'⟩ := f.code_insert pos.label
        { b with instrs := b.instrs.eraseIdx pos.index }
      refine ⟨hcode.trans (List.Perm.trans ?_ (hcode'.symm.cons _)), hexits.trans hexits'.symm⟩
      rw [map_bare_eq_of_getElem? hi, List.eraseIdx_eq_take_drop_succ, List.map_append,
        ← List.cons_append]
      exact List.Perm.append_right _ List.perm_middle

/-- A block is split behind an instruction, which is then removed. -/
theorem code_opened {f opened : Func} {pos : Position} {b : Block} {i : Instr}
    (hb : f.body.find? pos.label = some b) (hi : b.instrs[pos.index]? = some i)
    (hp : opened.body.entries.Perm (openedBlocks f pos b)) :
    f.code.Perm (i.bare :: opened.code) ∧ f.exits.Perm opened.exits := by
  obtain ⟨hcode, hexits⟩ := code_eq_of_find? hb
  have hcode' := code_perm hp
  have hexits' := exits_perm hp
  rw [openedBlocks, code_followTail] at hcode'
  rw [openedBlocks, exits_followTail] at hexits'
  refine ⟨hcode.trans (List.Perm.trans ?_ (hcode'.symm.cons _)), hexits.trans hexits'.symm⟩
  rw [map_bare_eq_of_getElem? hi]
  simp only [codeOf_cons, List.append_assoc, List.cons_append]
  exact List.perm_middle

theorem code_mapBlocks {f : Func} {h : Block → Block} {g : Instr → Instr}
    (hh : ∀ b : Block, (h b).instrs.map Instr.bare = (b.instrs.map Instr.bare).map g) :
    (f.mapBlocks h).code = f.code.map g :=
  codeOf_map fun e _ => hh e.2

theorem exits_mapBlocks {f : Func} {h : Block → Block} {g : Operand → Operand}
    (hh : ∀ b : Block, (h b).terminator.operands = b.terminator.operands.map g) :
    (f.mapBlocks h).exits = f.exits.map g :=
  exitsOf_map fun e _ => hh e.2

theorem code_mapOperands (f : Func) (g : Operand → Operand) :
    (f.mapBlocks (Block.mapOperands g)).code = f.code.map (Instr.mapOperands g) :=
  code_mapBlocks fun b => by simp [Block.mapOperands]

theorem exits_mapOperands (f : Func) (g : Operand → Operand) :
    (f.mapBlocks (Block.mapOperands g)).exits = f.exits.map g :=
  exits_mapBlocks fun b => by simp [Block.mapOperands]

/-- An edit of one block leaves the code of the others. -/
theorem code_modify {f : Func} {label : Label} {b : Block} (g : Block → Block)
    (hb : f.body.find? label = some b) :
    ({ f with body := f.body.modify label g } : Func).code.Perm
        ((g b).instrs.map Instr.bare ++ codeOf (f.body.erase label).entries) ∧
      ({ f with body := f.body.modify label g } : Func).exits.Perm
        ((g b).terminator.operands ++ exitsOf (f.body.erase label).entries) := by
  rw [OrderedMap.modify_eq_insert hb]
  exact f.code_insert label (g b)

/-- Instructions are put in the place of another. -/
theorem code_replaceInstr {f : Func} {pos : Position} {b : Block} {i : Instr} (new : List Instr)
    (hb : f.body.find? pos.label = some b) (hi : b.instrs[pos.index]? = some i) :
    ∃ rest, f.code.Perm (i.bare :: rest) ∧
      (f.replaceInstr pos new).code.Perm (new.map Instr.bare ++ rest) ∧
        (f.replaceInstr pos new).exits.Perm f.exits := by
  obtain ⟨hcode, hexits⟩ := code_eq_of_find? hb
  obtain ⟨hcode', hexits'⟩ := code_modify (fun b : Block =>
    { b with instrs := b.instrs.take pos.index ++ new ++ b.instrs.drop (pos.index + 1) }) hb
  refine ⟨((b.instrs.take pos.index).map Instr.bare ++
    (b.instrs.drop (pos.index + 1)).map Instr.bare) ++ codeOf (f.body.erase pos.label).entries,
    hcode.trans ?_, hcode'.trans ?_, hexits'.trans hexits.symm⟩
  · rw [map_bare_eq_of_getElem? hi, ← List.cons_append]
    exact List.Perm.append_right _ List.perm_middle
  · simp only [List.map_append, ← List.append_assoc]
    exact List.Perm.append_right _ (List.Perm.append_right _ List.perm_append_comm)

end Func

namespace Splice

/-- What becomes of an instruction of the callee, but for its labels. -/
def paste (s : Splice) (i : Instr) : Instr := (i.mapDest s.reg).mapOperands s.operand

theorem codeOf_blocks (s : Splice) : codeOf s.blocks = s.callee.code.map s.paste :=
  codeOf_map fun e _ => by simp [block, instr, paste]

theorem mem_exitsOf_blocks {s : Splice} {op : Operand} (h : op ∈ exitsOf s.blocks) :
    ∃ o ∈ s.callee.exits, s.operand o = op := by
  obtain ⟨_, he, hop⟩ := mem_exitsOf.1 h
  obtain ⟨⟨l, b⟩, hb, rfl⟩ := List.mem_map.1 he
  cases ht : b.terminator with
  | branch c l l' =>
      simp only [block, terminator, ht, Terminator.operands_mapTargets,
        Terminator.operands_mapOperands] at hop
      obtain ⟨o, ho, rfl⟩ := List.mem_map.1 hop
      exact ⟨o, mem_exitsOf.2 ⟨_, hb, ht ▸ ho⟩, rfl⟩
  | _ => simp [block, terminator, ht, Terminator.operands, Terminator.mapOperands,
      Terminator.mapTargets] at hop

theorem mem_returns {s : Splice} {e : Label × Operand} (h : e ∈ s.returns) :
    e.2 = .undefined ∨ ∃ o ∈ s.callee.exits, s.operand o = e.2 := by
  obtain ⟨k, b, value, hb, ht, -, hvalue⟩ := s.mem_returns_iff.1 h
  cases value with
  | none => exact Or.inl hvalue.symm
  | some o =>
      exact Or.inr ⟨o, mem_exitsOf.2 ⟨(k, b), OrderedMap.mem_entries_iff.2 hb, by
        simp [ht, Terminator.operands]⟩, hvalue⟩

end Splice

namespace Inline

theorem map_bare_bindResult (call : Call) (returns : List (Label × Operand)) (cont : Label)
    (e : Label × Block) : (bindResult call returns cont e).2.instrs.map Instr.bare =
      (if e.1 = cont then ((resultPhis call returns).map Instr.phi).map Instr.bare else []) ++
        (e.2.instrs.map Instr.bare).map (Instr.mapOperands (resultRead call returns)) := by
  by_cases h : e.1 = cont <;> simp [bindResult, h, Block.mapOperands, Function.comp_def]

theorem codeOf_bindResult {call : Call} {returns : List (Label × Operand)} {cont : Label}
    {es : List (Label × Block)} (h : ∀ e ∈ es, e.1 ≠ cont) :
    codeOf (es.map (bindResult call returns cont)) =
      (codeOf es).map (Instr.mapOperands (resultRead call returns)) :=
  codeOf_map fun e he => by rw [map_bare_bindResult, if_neg (h e he), List.nil_append]

theorem exitsOf_bindResult (call : Call) (returns : List (Label × Operand)) (cont : Label)
    (es : List (Label × Block)) :
    exitsOf (es.map (bindResult call returns cont)) =
      (exitsOf es).map (resultRead call returns) :=
  exitsOf_map fun e _ => by simp [bindResult, Block.mapOperands]

/-- The call goes; the code of the callee and the phi of the result come in its place, and the
result is read as the value that is returned. -/
theorem code_splice {caller callee f : Func} {call : Call} {pos : Position} {cont : Label}
    (h : splice caller call callee pos = .ok (cont, f)) (hcall : caller.callAt pos = .ok call) :
    ∃ rest pasted, caller.code.Perm (.call call :: rest) ∧
      f.code.Perm (((resultPhis call (copy caller call callee).returns).map
        Instr.phi).map Instr.bare ++
          (callee.code.map (copy caller call callee).paste ++ rest).map
            (Instr.mapOperands (resultRead call (copy caller call callee).returns))) ∧
      (∀ op ∈ pasted, ∃ o ∈ callee.exits, (copy caller call callee).operand o = op) ∧
      f.exits.Perm ((pasted ++ caller.exits).map
        (resultRead call (copy caller call callee).returns)) := by
  obtain ⟨b, hb, hi, rfl, -, hp⟩ := splice_eq_ok h hcall
  obtain ⟨hcode, hexits⟩ := Func.code_eq_of_find? hb
  have hne : pos.label ≠ caller.nextLabel := (Func.nextLabel_ne (by rw [hb]; rfl)).symm
  set s := copy caller call callee with hs
  refine ⟨((b.instrs.take pos.index).map Instr.bare ++
    (b.instrs.drop (pos.index + 1)).map Instr.bare) ++ codeOf (caller.body.erase pos.label).entries,
    exitsOf s.blocks, hcode.trans ?_, (Func.code_perm hp).trans ?_,
    fun op hop => s.mem_exitsOf_blocks hop, (Func.exits_perm hp).trans ?_⟩
  · rw [Func.map_bare_eq_of_getElem? hi, ← List.cons_append]
    exact List.Perm.append_right _ List.perm_middle
  · have hothers : ∀ e ∈ (caller.body.erase pos.label).entries.map
        (Func.followTail b.terminator.targets pos.label caller.nextLabel),
        e.1 ≠ caller.nextLabel := by
      intro e he
      obtain ⟨e', he', rfl⟩ := List.mem_map.1 he
      have hk : e'.1 ∈ caller.body.keys := List.mem_map_of_mem (OrderedMap.mem_of_mem_erase he')
      exact Nat.ne_of_lt (Func.lt_nextLabel hk)
    rw [joined, List.map_append, codeOf_append, ← hs,
      codeOf_bindResult fun e he => Nat.ne_of_gt (label_lt_of_mem_blocks he), s.codeOf_blocks]
    simp only [List.map_cons, codeOf_cons, map_bare_bindResult, Func.followTail_fst, hne,
      if_false, if_true, List.nil_append, Func.map_bare_followTail, codeOf_bindResult hothers,
      Func.code_followTail, List.map_append]
    rw [List.append_assoc, List.append_assoc]
    exact (List.Perm.append_left _ (List.perm_append_comm_assoc _ _ _)).trans
      (List.perm_append_comm_assoc _ _ _)
  · rw [exitsOf_bindResult, joined, exitsOf_append, Func.exits_followTail]
    simp only [exitsOf_cons, Terminator.operands, List.nil_append]
    exact (hexits.symm.append_left _).map _

end Inline

end KernelIR
