import KernelIR.Proofs.Inline.Blocks
import KernelIR.Proofs.Memory.Expand
import Mathlib

/-!
# Edges between blocks

An edit of the control flow cuts a block in two, ends the first half anew and adds blocks under
fresh labels.  What such an edit does to the edges is said once for all edits.
-/

namespace KernelIR

/-- Control goes from block `k` of a list to `l`. -/
def Leads (es : List (Label × Block)) (k l : Label) : Prop :=
  ∃ e ∈ es, e.1 = k ∧ l ∈ e.2.terminator.targets

section Leads

variable {es es' : List (Label × Block)} {k l : Label}

@[simp] theorem leads_nil : ¬Leads [] k l := by
  simp [Leads]

@[simp] theorem leads_cons {e : Label × Block} :
    Leads (e :: es) k l ↔ (e.1 = k ∧ l ∈ e.2.terminator.targets) ∨ Leads es k l := by
  simp [Leads]

@[simp] theorem leads_append : Leads (es ++ es') k l ↔ Leads es k l ∨ Leads es' k l := by
  simp [Leads, or_and_right, exists_or]

theorem leads_of_perm (h : es.Perm es') : Leads es k l ↔ Leads es' k l := by
  simp [Leads, h.mem_iff]

theorem leads_map {g : Label × Block → Label × Block} (hlabel : ∀ e, (g e).1 = e.1)
    (htargets : ∀ e, (g e).2.terminator.targets = e.2.terminator.targets) :
    Leads (es.map g) k l ↔ Leads es k l := by
  simp only [Leads, List.mem_map, exists_exists_and_eq_and, hlabel, htargets]

end Leads

theorem Func.precedes_iff_leads {f : Func} {k l : Label} :
    f.Precedes k l ↔ Leads f.body.entries k l := by
  constructor
  · rintro ⟨b, hb, hl⟩
    exact ⟨(k, b), OrderedMap.mem_entries_iff.2 hb, rfl, hl⟩
  · rintro ⟨⟨k, b⟩, hb, rfl, hl⟩
    exact ⟨b, find?_of_mem_entries hb, hl⟩

namespace Block

theorem flatMap_phiLabels_map {h : Instr → Instr} {g : Label → Label}
    (hh : ∀ i, (h i).phiLabels = i.phiLabels.map g) (is : List Instr) :
    (is.map h).flatMap Instr.phiLabels = (is.flatMap Instr.phiLabels).map g := by
  simp [List.flatMap_map, List.map_flatMap, hh]

@[simp] theorem phiLabels_mapPhiLabels (g : Label → Label) (b : Block) :
    (b.mapPhiLabels g).phiLabels = b.phiLabels.map g :=
  flatMap_phiLabels_map (Instr.phiLabels_mapPhiLabels g) b.instrs

@[simp] theorem phiLabels_mapOperands (g : Operand → Operand) (b : Block) :
    (b.mapOperands g).phiLabels = b.phiLabels := by
  simp [phiLabels, mapOperands, List.flatMap_map]

/-- The labels that a block names, as targets and in phis, are among `labels`. -/
def Within (labels : List Label) (b : Block) : Prop :=
  ∀ k ∈ b.terminator.targets ++ b.phiLabels, k ∈ labels

end Block

/-- All labels that the blocks name are labels of blocks. -/
def Closed (es : List (Label × Block)) : Prop := ∀ e ∈ es, e.2.Within (es.map (·.1))

theorem Closed.of_perm {es es' : List (Label × Block)} (h : Closed es) (hp : es.Perm es') :
    Closed es' :=
  fun e he k hk => (hp.map _).mem_iff.1 (h e (hp.mem_iff.2 he) k hk)

theorem Func.Checked.closed {f : Func} (h : f.Checked) : Closed f.body.entries :=
  fun e he k hk =>
    OrderedMap.contains_iff.1 (h.labels e.1 e.2 (find?_of_mem_entries he) k hk)

namespace Func

theorem targets_followTail (targets : List Label) (old new : Label) (e : Label × Block) :
    (followTail targets old new e).2.terminator.targets = e.2.terminator.targets := by
  by_cases h : e.1 ∈ targets <;> simp [followTail, h, Block.mapPhiLabels]

theorem leads_followTail {targets : List Label} {old new : Label} {es : List (Label × Block)}
    {k l : Label} : Leads (es.map (followTail targets old new)) k l ↔ Leads es k l :=
  leads_map (fun _ => rfl) (targets_followTail targets old new)

theorem within_followTail {labels targets : List Label} {old new : Label} {e : Label × Block}
    (hnew : new ∈ labels) (h : e.2.Within labels) :
    (followTail targets old new e).2.Within labels := by
  by_cases he : e.1 ∈ targets
  · simp only [followTail, he, if_true]
    intro k hk
    rcases List.mem_append.1 hk with hk | hk
    · exact h k (List.mem_append_left _ hk)
    · rw [Block.phiLabels_mapPhiLabels] at hk
      obtain ⟨k₀, hk₀, rfl⟩ := List.mem_map.1 hk
      rw [relabel]
      split_ifs
      · exact hnew
      · exact h k₀ (List.mem_append_right _ hk₀)
  · simpa only [followTail, he, if_false] using h

/-- The blocks of `f` with block `label` cut in two: its first half ends with `t`, the second has
a fresh label and ends with `tail`, which was the end of the block. -/
def cutBlocks (f : Func) (label : Label) (first second : List Instr) (t tail : Terminator) :
    List (Label × Block) :=
  ((label, ⟨first, t⟩) :: (f.nextLabel, ⟨second, tail⟩) :: (f.body.erase label).entries).map
    (followTail tail.targets label f.nextLabel)

variable {f : Func} {label : Label} {b : Block}

theorem keys_cutBlocks (first second : List Instr) (t tail : Terminator) :
    (f.cutBlocks label first second t tail).map (·.1) =
      label :: f.nextLabel :: (f.body.erase label).entries.map (·.1) := by
  simp [cutBlocks, Function.comp_def]

theorem mem_keys_cutBlocks (hb : f.body.find? label = some b) {k : Label}
    (hk : k ∈ f.body.entries.map (·.1)) (first second : List Instr) (t tail : Terminator) :
    k ∈ (f.cutBlocks label first second t tail).map (·.1) := by
  rw [keys_cutBlocks]
  rw [((OrderedMap.entries_perm_of_find? hb).map (·.1)).mem_iff, List.map_cons] at hk
  rcases List.mem_cons.1 hk with rfl | hk
  · exact List.mem_cons_self
  · exact List.mem_cons_of_mem _ (List.mem_cons_of_mem _ hk)

/-- An edit that cuts a block and adds others names no label that is not there. -/
theorem closed_cutBlocks (h : Closed f.body.entries) (hb : f.body.find? label = some b)
    {first second : List Instr} {t : Terminator} {blocks : List (Label × Block)}
    (hfirst : ∀ i ∈ first, i.phiLabels = [] ∨ i ∈ b.instrs)
    (hsecond : ∀ i ∈ second, i ∈ b.instrs)
    (ht : ∀ k ∈ t.targets, k = f.nextLabel ∨ k ∈ blocks.map (·.1))
    (hblocks : ∀ e ∈ blocks,
      e.2.Within (label :: f.nextLabel :: blocks.map (·.1))) :
    Closed (blocks ++ f.cutBlocks label first second t b.terminator) := by
  set labels := (blocks ++ f.cutBlocks label first second t b.terminator).map (·.1) with hlabels
  rw [List.map_append] at hlabels
  have hcut : ∀ k ∈ (f.cutBlocks label first second t b.terminator).map (·.1), k ∈ labels :=
    fun k hk => hlabels ▸ List.mem_append_right _ hk
  have hnew : ∀ k ∈ blocks.map (·.1), k ∈ labels := fun k hk => hlabels ▸ List.mem_append_left _ hk
  have hhead : label ∈ labels := hcut _ (by rw [keys_cutBlocks]; simp)
  have hfresh : f.nextLabel ∈ labels := hcut _ (by rw [keys_cutBlocks]; simp)
  have hold : ∀ k ∈ f.body.entries.map (·.1), k ∈ labels :=
    fun k hk => hcut k (mem_keys_cutBlocks hb hk _ _ _ _)
  have hbody : ∀ e ∈ f.body.entries, e.2.Within labels := fun e he k hk => hold k (h e he k hk)
  have hblock := hbody _ (OrderedMap.mem_entries_iff.2 hb)
  intro e he
  rcases List.mem_append.1 he with he | he
  · intro k hk
    have hk := hblocks e he k hk
    simp only [List.mem_cons] at hk
    rcases hk with rfl | rfl | hk
    · exact hhead
    · exact hfresh
    · exact hnew k hk
  · obtain ⟨e₀, he₀, rfl⟩ := List.mem_map.1 he
    refine within_followTail hfresh ?_
    rcases List.mem_cons.1 he₀ with rfl | he₀
    · intro k hk
      rcases List.mem_append.1 hk with hk | hk
      · rcases ht k hk with rfl | hk
        · exact hfresh
        · exact hnew k hk
      · obtain ⟨i, hi, hk⟩ := List.mem_flatMap.1 hk
        rcases hfirst i hi with hnil | hi
        · rw [hnil] at hk
          exact nomatch hk
        · exact hblock k (List.mem_append_right _ (List.mem_flatMap.2 ⟨i, hi, hk⟩))
    · rcases List.mem_cons.1 he₀ with rfl | he₀
      · intro k hk
        rcases List.mem_append.1 hk with hk | hk
        · exact hblock k (List.mem_append_left _ hk)
        · obtain ⟨i, hi, hk⟩ := List.mem_flatMap.1 hk
          exact hblock k (List.mem_append_right _ (List.mem_flatMap.2 ⟨i, hsecond i hi, hk⟩))
      · exact hbody _ (OrderedMap.mem_of_mem_erase he₀)

end Func

namespace Splice

variable {s : Splice}

theorem targets_terminator {t : Terminator} {k : Label} (hk : k ∈ (s.terminator t).targets) :
    (∃ value, t = .ret value ∧ k = s.continuation) ∨ ∃ k₀ ∈ t.targets, s.label k₀ = k := by
  cases t with
  | ret value => exact Or.inl ⟨value, rfl, List.mem_singleton.1 hk⟩
  | _ =>
      refine Or.inr ?_
      rw [terminator, Terminator.targets_mapTargets, Terminator.targets_mapOperands] at hk
      · exact List.mem_map.1 hk
      · simp

@[simp] theorem phiLabels_instr (s : Splice) (i : Instr) :
    (s.instr i).phiLabels = i.phiLabels.map s.label := by
  cases i <;> simp [instr, Instr.phiLabels, Instr.mapDest, Instr.mapOperands, Instr.mapPhiLabels]

@[simp] theorem phiLabels_block (s : Splice) (b : Block) :
    (s.block b).phiLabels = b.phiLabels.map s.label :=
  Block.flatMap_phiLabels_map s.phiLabels_instr b.instrs

/-- A copied block names copied blocks, and the block that follows the call. -/
theorem within_of_mem_blocks (h : Closed s.callee.body.entries) {e : Label × Block}
    (he : e ∈ s.blocks) : e.2.Within (s.continuation :: s.blocks.map (·.1)) := by
  obtain ⟨e₀, he₀, rfl⟩ := List.mem_map.1 he
  have hlabel : ∀ k ∈ e₀.2.terminator.targets ++ e₀.2.phiLabels,
      s.label k ∈ s.blocks.map (·.1) := by
    intro k hk
    rw [fst_blocks]
    exact List.mem_map_of_mem (h e₀ he₀ k hk)
  intro k hk
  rcases List.mem_append.1 hk with hk | hk
  · obtain ⟨-, -, rfl⟩ | ⟨k₀, hk₀, rfl⟩ := targets_terminator hk
    · exact List.mem_cons_self
    · exact List.mem_cons_of_mem _ (hlabel k₀ (List.mem_append_left _ hk₀))
  · rw [phiLabels_block] at hk
    obtain ⟨k₀, hk₀, rfl⟩ := List.mem_map.1 hk
    exact List.mem_cons_of_mem _ (hlabel k₀ (List.mem_append_right _ hk₀))

end Splice

namespace Inline

variable {caller callee f : Func} {call : Call} {pos : Position} {b : Block}

theorem targets_bindResult (call : Call) (returns : List (Label × Operand)) (cont : Label)
    (e : Label × Block) :
    (bindResult call returns cont e).2.terminator.targets = e.2.terminator.targets := by
  simp [bindResult, Block.mapOperands]

theorem mem_phiLabels_bindResult {call : Call} {returns : List (Label × Operand)} {cont : Label}
    {e : Label × Block} {k : Label} (hk : k ∈ (bindResult call returns cont e).2.phiLabels) :
    k ∈ returns.map (·.1) ∨ k ∈ e.2.phiLabels := by
  rw [bindResult, Block.phiLabels, List.flatMap_append, List.mem_append] at hk
  refine hk.imp (fun hk => ?_) fun hk => ?_
  · obtain ⟨i, hi, hk⟩ := List.mem_flatMap.1 hk
    split_ifs at hi
    · obtain ⟨p, hp, rfl⟩ := List.mem_map.1 hi
      unfold resultPhis at hp
      split at hp
      · obtain rfl := List.mem_singleton.1 hp
        exact hk
      · exact absurd hp List.not_mem_nil
    · exact absurd hi List.not_mem_nil
  · rwa [← Block.phiLabels, Block.phiLabels_mapOperands] at hk

theorem fst_mem_of_mem_returns {s : Splice} {k : Label} (hk : k ∈ s.returns.map (·.1)) :
    k ∈ s.blocks.map (·.1) := by
  obtain ⟨e, he, rfl⟩ := List.mem_map.1 hk
  obtain ⟨_, b, _, hb, _, hl, _⟩ := s.mem_returns_iff.1 he
  rw [← hl, Splice.fst_blocks]
  exact List.mem_map_of_mem (OrderedMap.mem_keys_iff.2 (by rw [hb]; rfl))

theorem keys_bindResult (call : Call) (returns : List (Label × Operand)) (cont : Label)
    (es : List (Label × Block)) :
    (es.map (bindResult call returns cont)).map (·.1) = es.map (·.1) := by
  rw [List.map_map]
  rfl

/-- The blocks of the caller stay. -/
theorem contains_splice {cont l : Label} (h : splice caller call callee pos = .ok (cont, f))
    (hcall : caller.callAt pos = .ok call) (hl : caller.body.contains l = true) :
    f.body.contains l = true := by
  obtain ⟨b, hb, -, -, -, hp⟩ := splice_eq_ok h hcall
  rw [OrderedMap.contains_iff] at hl ⊢
  refine (hp.map _).mem_iff.2 ?_
  rw [keys_bindResult, joined, List.map_append]
  exact List.mem_append_right _ (Func.mem_keys_cutBlocks hb hl _ _ _ _)

/-- All labels that a body names after a call is inlined are there. -/
theorem closed_splice {cont : Label} (h : splice caller call callee pos = .ok (cont, f))
    (hcall : caller.callAt pos = .ok call) (hcaller : Closed caller.body.entries)
    (hcallee : Closed callee.body.entries) (hentry : callee.body.contains .entry = true) :
    Closed f.body.entries := by
  obtain ⟨b, hb, -, rfl, -, hp⟩ := splice_eq_ok h hcall
  refine Closed.of_perm ?_ hp.symm
  set s := copy caller call callee with hs
  have hjoined : Closed (joined caller call callee pos b) := by
    refine Func.closed_cutBlocks hcaller hb (fun i hi => Or.inr (List.mem_of_mem_take hi))
      (fun i hi => List.mem_of_mem_drop hi) ?_ fun e he k hk => ?_
    · intro k hk
      obtain rfl := List.mem_singleton.1 hk
      refine Or.inr ?_
      rw [Splice.fst_blocks]
      exact List.mem_map_of_mem (OrderedMap.contains_iff.1 hentry)
    · exact List.mem_cons_of_mem _ (s.within_of_mem_blocks hcallee he k hk)
  intro e he
  rw [keys_bindResult]
  obtain ⟨e₀, he₀, rfl⟩ := List.mem_map.1 he
  intro k hk
  rcases List.mem_append.1 hk with hk | hk
  · rw [targets_bindResult] at hk
    exact hjoined e₀ he₀ k (List.mem_append_left _ hk)
  · rcases mem_phiLabels_bindResult hk with hk | hk
    · rw [joined, List.map_append]
      exact List.mem_append_left _ (fst_mem_of_mem_returns hk)
    · exact hjoined e₀ he₀ k (List.mem_append_right _ hk)

end Inline

namespace MemCall

variable {c : MemCall} {f f' : Func} {pos : Position} {b : Block}

theorem guardHeader_openedBlocks (c : MemCall) (f : Func) (pos : Position) (b : Block) (r : Reg)
    (first exit : Label) (hb : f.body.find? pos.label = some b) :
    (Func.openedBlocks f pos b).map (fun e =>
      (e.1, if e.1 = pos.label then c.guardHeader r first exit e.2 else e.2)) =
    f.cutBlocks pos.label (b.instrs.take pos.index ++ [.icmp r .eq c.len (c.const 0)])
      (b.instrs.drop (pos.index + 1)) (.branch (.reg r) exit first) b.terminator := by
  have hne : f.nextLabel ≠ pos.label := Func.nextLabel_ne (by rw [hb]; rfl)
  rw [Func.openedBlocks, Func.cutBlocks, List.map_map]
  simp only [List.map_cons, List.cons.injEq]
  refine ⟨?_, ?_, List.map_congr_left ?_⟩
  · by_cases h : pos.label ∈ b.terminator.targets <;>
      simp [Func.followTail, h, Block.mapPhiLabels, guardHeader, Instr.mapPhiLabels]
  · simp [hne, Func.followTail]
  · intro e he
    have hne' : e.1 ≠ pos.label := OrderedMap.ne_of_mem_erase he
    simp [hne', Func.followTail]

/-- The blocks of a body with a loop in the place of a call. -/
theorem entries_expand (hb : f.body.find? pos.label = some b) (h : c.expand f pos = .ok f') :
    ∃ opened : Func, opened.body.entries.Perm (f.openedBlocks pos b) ∧
      f' = { f with body := f'.body } ∧ f'.body.entries.Perm
        (c.blocks (opened.nextReg + 1) pos.label (f.nextLabel + 1) f.nextLabel ++
          f.cutBlocks pos.label
            (b.instrs.take pos.index ++ [.icmp opened.nextReg .eq c.len (c.const 0)])
            (b.instrs.drop (pos.index + 1))
            (.branch (.reg opened.nextReg) f.nextLabel (f.nextLabel + 1)) b.terminator) := by
  obtain ⟨opened, hp, hopened, rfl⟩ := expand_eq_ok hb h
  have hlt : pos.label < f.nextLabel :=
    Func.lt_nextLabel (OrderedMap.mem_keys_iff.2 (by rw [hb]; rfl))
  refine ⟨opened, hp, by rw [hopened]; rfl, (Func.entries_insertBlocks (c.nodup_blocks _ _ _ _)
    fun e he => ?_).trans (List.Perm.append_left _ ?_)⟩
  · have hle := le_of_mem_blocks he
    rw [guarded, OrderedMap.find?_modify_of_ne _
      (Nat.ne_of_gt (Nat.lt_of_lt_of_le (Nat.lt_succ_of_lt hlt) hle))]
    exact Func.find?_of_nextLabel_le (by rwa [Func.nextLabel_opened hp hb])
  · rw [guarded, OrderedMap.entries_modify, ← guardHeader_openedBlocks c f pos b _ _ _ hb]
    exact hp.map _

theorem phiLabels_transferByte (c : MemCall) (base : Reg) (index : Operand) :
    (c.transferByte base index).flatMap Instr.phiLabels = [] := by
  rw [transferByte]
  cases c.kind <;> rfl

@[simp] theorem phiLabels_forwardLoop (c : MemCall) (base : Reg) (label pred exit : Label) :
    (c.forwardLoop base label pred exit).phiLabels = [pred, label] := by
  simp [Block.phiLabels, forwardLoop, Instr.phiLabels, phiLabels_transferByte]

@[simp] theorem phiLabels_backwardLoop (c : MemCall) (base : Reg) (label pred exit : Label) :
    (c.backwardLoop base label pred exit).phiLabels = [pred, label] := by
  simp [Block.phiLabels, backwardLoop, Instr.phiLabels, phiLabels_transferByte]

@[simp] theorem phiLabels_direction (c : MemCall) (r : Reg) (backward forward : Label) :
    (c.direction r backward forward).phiLabels = [] := rfl

@[simp] theorem targets_forwardLoop (c : MemCall) (base : Reg) (label pred exit : Label) :
    (c.forwardLoop base label pred exit).terminator.targets = [label, exit] := rfl

@[simp] theorem targets_backwardLoop (c : MemCall) (base : Reg) (label pred exit : Label) :
    (c.backwardLoop base label pred exit).terminator.targets = [label, exit] := rfl

@[simp] theorem targets_direction (c : MemCall) (r : Reg) (backward forward : Label) :
    (c.direction r backward forward).terminator.targets = [backward, forward] := rfl

theorem within_of_mem_blocks {base : Reg} {header first exit : Label} {e : Label × Block}
    (he : e ∈ c.blocks base header first exit) :
    e.2.Within (header :: exit :: (c.blocks base header first exit).map (·.1)) := by
  rw [blocks] at he ⊢
  cases hkind : c.kind <;> simp only [hkind, List.mem_cons, List.not_mem_nil, or_false] at he
  · subst he
    simp [Block.Within]
  · rcases he with rfl | rfl | rfl <;> simp [Block.Within]
  · subst he
    simp [Block.Within]

/-- The blocks of the function stay. -/
theorem contains_expand {l : Label} (hb : f.body.find? pos.label = some b)
    (h : c.expand f pos = .ok f') (hl : f.body.contains l = true) :
    f'.body.contains l = true := by
  obtain ⟨opened, -, -, hp⟩ := entries_expand hb h
  rw [OrderedMap.contains_iff] at hl ⊢
  refine (hp.map _).mem_iff.2 ?_
  rw [List.map_append]
  exact List.mem_append_right _ (Func.mem_keys_cutBlocks hb hl _ _ _ _)

/-- All labels that a body names after a call becomes a loop are there. -/
theorem closed_expand (hf : Closed f.body.entries) (hb : f.body.find? pos.label = some b)
    (h : c.expand f pos = .ok f') : Closed f'.body.entries := by
  obtain ⟨opened, -, -, hp⟩ := entries_expand hb h
  refine Closed.of_perm (Func.closed_cutBlocks hf hb ?_ (fun i hi => List.mem_of_mem_drop hi) ?_
    fun e he => within_of_mem_blocks he) hp.symm
  · intro i hi
    rcases List.mem_append.1 hi with hi | hi
    · exact Or.inr (List.mem_of_mem_take hi)
    · obtain rfl := List.mem_singleton.1 hi
      exact Or.inl rfl
  · intro k hk
    rcases List.mem_cons.1 hk with rfl | hk
    · exact Or.inl rfl
    · obtain rfl := List.mem_singleton.1 hk
      refine Or.inr ?_
      rw [blocks]
      cases c.kind <;> simp

end MemCall

/-- What a successful expansion did: only the caller changes. -/
theorem Module.exists_expand_of_expandMemCall {m m' : Module} {site : CallSite}
    {kind : MemIntrinsic} (h : m.expandMemCall site kind = .ok m') :
    ∃ f call c f', m.funcs.get? site.caller = some f ∧ f.callAt site.pos = .ok call ∧
      m.memCall? f kind call = some c ∧ c.expand f site.pos = .ok f' ∧
        m' = m.setFunc site.caller f' := by
  rw [expandMemCall] at h
  split at h
  · cases h
  · next f hf =>
      split at h
      · cases h
      · next call hcall =>
          split at h
          · cases h
          · next c hc =>
              split at h
              · cases h
              · next f' hexpand =>
                  cases h
                  exact ⟨f, call, c, f', hf, hcall, hc, hexpand, rfl⟩

end KernelIR
