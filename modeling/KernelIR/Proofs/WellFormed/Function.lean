import KernelIR.Proofs.References
import KernelIR.Proofs.Scope
import KernelIR.Proofs.Wrapper.Resolved
import Mathlib

/-!
# Well-formed functions

A body is well formed when its labels are there and its code is well scoped.  A body that passes
the check of single assignment is, if no register depends on itself, all handles are live and each
call names its function; and edits of a body keep it so.
-/

namespace KernelIR

/-- A finite relation without cycles can be ranked: a node ranks by how much lies below it. -/
theorem exists_rank (nodes : List Reg) {dep : Reg → Reg → Prop}
    (hnodes : ∀ r s, dep r s → s ∈ nodes) (h : ∀ r, ¬Relation.TransGen dep r r) :
    ∃ rank : Reg → Nat, ∀ r s, dep r s → rank s < rank r := by
  classical
  refine ⟨fun r => (nodes.toFinset.filter (Relation.TransGen dep r)).card, fun r s hrs =>
    Finset.card_lt_card ((Finset.ssubset_iff_of_subset fun t ht => ?_).2 ⟨s, ?_, ?_⟩)⟩
  · obtain ⟨hmem, hst⟩ := Finset.mem_filter.1 ht
    exact Finset.mem_filter.2 ⟨hmem, .head hrs hst⟩
  · exact Finset.mem_filter.2 ⟨List.mem_toFinset.2 (hnodes r s hrs), .single hrs⟩
  · exact fun hs => h s (Finset.mem_filter.1 hs).2

namespace Instr

section SetCallConv

variable (id : FuncId) (conv : CallConv) (i : Instr)

@[simp] theorem dest?_setCallConv : (i.setCallConv id conv).dest? = i.dest? := by
  obtain h | ⟨c, rfl, h⟩ := setCallConv_eq id conv i <;> rw [h]
  rfl

@[simp] theorem isPhi_setCallConv : (i.setCallConv id conv).isPhi = i.isPhi := by
  obtain h | ⟨c, rfl, h⟩ := setCallConv_eq id conv i <;> rw [h]
  rfl

@[simp] theorem phiLabels_setCallConv : (i.setCallConv id conv).phiLabels = i.phiLabels := by
  obtain h | ⟨c, rfl, h⟩ := setCallConv_eq id conv i <;> rw [h]
  rfl

@[simp] theorem bare_setCallConv : (i.setCallConv id conv).bare = i.bare.setCallConv id conv := by
  cases i with
  | call c =>
      rw [bare_call]
      obtain h | ⟨c', hc, h⟩ := setCallConv_eq id conv (call c) <;> rw [h]
      · rfl
      · rfl
  | _ => rfl

theorem exists_of_setCallConv_eq_call {c : Call} (h : i.setCallConv id conv = call c) :
    ∃ c₀, i = call c₀ ∧ c.callee = c₀.callee := by
  obtain heq | ⟨c₀, rfl, heq⟩ := setCallConv_eq id conv i
  · exact ⟨c, heq.symm.trans h, rfl⟩
  · rw [heq] at h
    cases h
    exact ⟨c₀, rfl, rfl⟩

end SetCallConv

section MapFuncs

variable (k : FuncId → FuncId) (i : Instr)

@[simp] theorem dest?_mapFuncs : (i.mapFuncs k).dest? = i.dest? := by
  cases i <;> rfl

@[simp] theorem isPhi_mapFuncs : (i.mapFuncs k).isPhi = i.isPhi := by
  cases i <;> rfl

@[simp] theorem phiLabels_mapFuncs : (i.mapFuncs k).phiLabels = i.phiLabels := by
  cases i <;> simp [mapFuncs]
  rfl

@[simp] theorem bare_mapFuncs : (i.mapFuncs k).bare = i.bare.mapFuncs k := by
  cases i <;> simp [mapFuncs, bare, mapPhiLabels, mapOperands]

theorem exists_of_mapFuncs_eq_call {c : Call} (h : i.mapFuncs k = call c) :
    ∃ c₀, i = call c₀ ∧ c.callee.resolve? = c₀.callee.resolve?.map k := by
  cases i with
  | call c₀ =>
      cases h
      refine ⟨c₀, rfl, ?_⟩
      cases hc : c₀.callee with
      | indirect op => cases op <;> simp [Callee.mapTarget, Callee.mapOperands, Callee.resolve?,
          Operand.mapFunc]
      | _ => simp [Callee.mapTarget, Callee.mapOperands, Callee.resolve?]
  | _ => cases h

end MapFuncs

end Instr

namespace Func

/-- An instruction that is no phi computes `r` from `s`. -/
def DependsOn (f : Func) (r s : Reg) : Prop :=
  ∃ b ∈ f.body.values, ∃ i ∈ b.instrs, i.isPhi = false ∧ i.dest? = some r ∧ s ∈ i.reads

def Acyclic (f : Func) : Prop := ∀ r, ¬Relation.TransGen f.DependsOn r r

theorem dependsOn_iff {f : Func} {r s : Reg} :
    f.DependsOn r s ↔ ∃ i ∈ f.code, i.isPhi = false ∧ i.dest? = some r ∧ .reg s ∈ i.mentions := by
  constructor
  · rintro ⟨b, hb, i, hi, hphi, hr, hs⟩
    obtain ⟨e, he, rfl⟩ := List.mem_map.1 hb
    exact ⟨i.bare, mem_codeOf.2 ⟨e, he, i, hi, rfl⟩, by simpa using hphi, by simpa using hr,
      by simpa using Instr.mem_reads_iff.1 hs⟩
  · rintro ⟨i₀, hi₀, hphi, hr, hs⟩
    obtain ⟨e, he, i, hi, rfl⟩ := mem_codeOf.1 hi₀
    exact ⟨e.2, List.mem_map_of_mem he, i, hi, by simpa using hphi, by simpa using hr,
      Instr.mem_reads_iff.2 (by simpa using hs)⟩

/-- Nothing depends on itself when instructions read older registers than they write. -/
theorem acyclic_of_lt {f : Func} (h : ∀ b ∈ f.body.values, ∀ i ∈ b.instrs, i.isPhi = false →
    ∀ r ∈ i.dest?, ∀ s ∈ i.reads, s < r) : f.Acyclic := by
  have hlt : ∀ r s, Relation.TransGen f.DependsOn r s → s < r := by
    intro r s hrs
    induction hrs with
    | single hrs =>
        obtain ⟨b, hb, i, hi, hphi, hr, hs⟩ := hrs
        exact h b hb i hi hphi _ hr _ hs
    | tail _ hst ih =>
        obtain ⟨b, hb, i, hi, hphi, hr, hs⟩ := hst
        exact Nat.lt_trans (h b hb i hi hphi _ hr _ hs) ih
  exact fun r hr => Nat.lt_irrefl r (hlt r r hr)

/-- There is a block to enter, and all labels that the body names are there. -/
structure Labelled (f : Func) : Prop where
  entry : f.isDeclaration = false → f.body.contains .entry = true
  closed : Closed f.body.entries

structure WellFormed (m : Module) (f : Func) : Prop where
  labels : f.Labelled
  code : WellScoped m.Live f.params.length f.code f.exits

theorem destsOf_code (f : Func) : destsOf f.code = f.dests :=
  f.dests_eq_code.symm

theorem mem_mentions_of_mem_operands {f : Func} {l : Label} {b : Block}
    (hb : f.body.find? l = some b) {op : Operand} (h : op ∈ b.operands) :
    op ∈ f.code.flatMap Instr.mentions ∨ op ∈ f.exits := by
  have he := OrderedMap.mem_entries_iff.2 hb
  rcases List.mem_append.1 h with h | h
  · obtain ⟨i, hi, hop⟩ := List.mem_flatMap.1 h
    exact Or.inl (List.mem_flatMap.2 ⟨i.bare, mem_codeOf.2 ⟨_, he, i, hi, rfl⟩,
      by simpa using Instr.mem_mentions_of_mem_operands hop⟩)
  · exact Or.inr (mem_exitsOf.2 ⟨_, he, h⟩)

theorem operandFault?_eq_none_iff {f : Func} {op : Operand} :
    f.operandFault? op = none ↔ op.InScope (fun _ => True) f.params.length f.dests := by
  cases op <;> simp [operandFault?, Operand.InScope]

/-- A body is in single-assignment form if its labels are there, and its code and exits refer to
registers and parameters that are there. -/
theorem checked_iff {f : Func} : f.Checked ↔
    f.Labelled ∧ Scoped (fun _ => True) f.params.length f.code f.exits := by
  constructor
  · intro h
    refine ⟨⟨h.entry, h.closed⟩, ⟨destsOf_code f ▸ h.nodup, fun i hi op hop => ?_,
      fun op hop => ?_⟩⟩
    · obtain ⟨⟨l, b⟩, hb, j, hj, rfl⟩ := mem_codeOf.1 hi
      obtain hop | ⟨id, rfl⟩ := Instr.mem_operands_or_of_mem_mentions hop
      · rw [Instr.operands_bare] at hop
        rw [destsOf_code, ← operandFault?_eq_none_iff]
        exact h.reads l b (find?_of_mem_entries hb) op
          (List.mem_append_left _ (List.mem_flatMap.2 ⟨j, hj, hop⟩))
      · trivial
    · obtain ⟨⟨l, b⟩, hb, hop⟩ := mem_exitsOf.1 hop
      rw [destsOf_code, ← operandFault?_eq_none_iff]
      exact h.reads l b (find?_of_mem_entries hb) op (List.mem_append_right _ hop)
  · rintro ⟨hlabels, hcode⟩
    refine ⟨hlabels.entry, destsOf_code f ▸ hcode.nodup, fun l b hb op hop => ?_,
      fun l b hb k hk => ?_⟩
    · rw [operandFault?_eq_none_iff, ← destsOf_code]
      exact hcode.inScope (mem_mentions_of_mem_operands hb hop)
    · exact OrderedMap.contains_iff.2
        (hlabels.closed (l, b) (OrderedMap.mem_entries_iff.2 hb) k hk)

namespace WellFormed

variable {m m' : Module} {f g : Func}

theorem mono (h : f.WellFormed m) (hlive : ∀ op ∈ f.mentions, m.Live op → m'.Live op) :
    f.WellFormed m' :=
  ⟨h.labels, h.code.mono fun op hop => hlive op (mem_mentions_iff.2 hop)⟩

/-- What is neither body nor number of parameters does not matter. -/
theorem congr (h : f.WellFormed m) (hbody : g.body = f.body)
    (hparams : g.params.length = f.params.length) : g.WellFormed m := by
  refine ⟨⟨?_, ?_⟩, ?_⟩
  · rw [isDeclaration, hbody]
    exact h.labels.entry
  · rw [hbody]
    exact h.labels.closed
  · rw [Func.code, Func.exits, hbody, hparams]
    exact h.code

theorem checked (h : f.WellFormed m) : f.Checked :=
  checked_iff.2 ⟨h.labels, h.code.toScoped.mono fun _ _ _ => trivial⟩

theorem live_of_mem_mentions (h : f.WellFormed m) {op : Operand} (hop : op ∈ f.mentions) :
    m.Live op := by
  have hin := h.code.toScoped.inScope (mem_mentions_iff.1 hop)
  cases op <;> first | exact hin | trivial

theorem of_checked (hchecked : f.Checked) (hacyclic : f.Acyclic) (hresolved : f.Resolved)
    (hlive : ∀ op ∈ f.mentions, m.Live op) : f.WellFormed m := by
  obtain ⟨hlabels, hcode⟩ := checked_iff.1 hchecked
  refine ⟨hlabels, (hcode.mono fun op hop _ => hlive op (mem_mentions_iff.2 hop)).wellScoped ?_
    fun c hc => hresolved c (hasCall_iff_code.2 hc)⟩
  have hdefined : ∀ r s, f.DependsOn r s → s ∈ destsOf f.code := fun r s hrs => by
    obtain ⟨i, hi, -, -, hs⟩ := dependsOn_iff.1 hrs
    exact hcode.mentions i hi _ hs
  obtain ⟨rank, hrank⟩ := exists_rank (destsOf f.code) hdefined hacyclic
  exact ⟨rank, fun i hi hphi r hr s hs => hrank r s (dependsOn_iff.2 ⟨i, hi, hphi, hr, hs⟩)⟩

end WellFormed

section Edits

variable {m m' : Module} {f g : Func} {label : Label} {b : Block} {pos : Position} {i : Instr}
  {r : Reg}

theorem Labelled.contains_entry (h : f.Labelled) (hb : f.body.find? label = some b) :
    f.body.contains .entry = true :=
  h.entry (isDeclaration_of_find? hb)

theorem Labelled.mapBlocks (h : f.Labelled) {g : Block → Block}
    (htargets : ∀ b, (g b).terminator.targets = b.terminator.targets)
    (hphis : ∀ b, (g b).phiLabels = b.phiLabels) : (f.mapBlocks g).Labelled := by
  have hkeys : (f.mapBlocks g).body.entries.map (·.1) = f.body.entries.map (·.1) :=
    OrderedMap.keys_map g f.body
  refine ⟨fun hdecl => ?_, fun e he => ?_⟩
  · have hdecl' : f.isDeclaration = false := by
      simpa [isDeclaration, OrderedMap.isEmpty, Func.mapBlocks, OrderedMap.map] using hdecl
    rw [OrderedMap.contains_iff, OrderedMap.keys, hkeys]
    exact OrderedMap.contains_iff.1 (h.entry hdecl')
  · obtain ⟨e₀, he₀, rfl⟩ := List.mem_map.1 he
    rw [hkeys, Block.Within, htargets, hphis]
    exact h.closed e₀ he₀

/-- A block may be put in the place of another if it names no label that the other does not. -/
theorem Labelled.insert (h : f.Labelled) (hb : f.body.find? label = some b) {b' : Block}
    (hb' : ∀ k ∈ b'.terminator.targets ++ b'.phiLabels,
      k ∈ b.terminator.targets ++ b.phiLabels) :
    ({ f with body := f.body.insert label b' } : Func).Labelled := by
  have hold := OrderedMap.entries_perm_of_find? hb
  have hnew := f.body.entries_insert_perm label b'
  have hkeys : ∀ k, k ∈ f.body.entries.map (·.1) ↔
      k ∈ (f.body.insert label b').entries.map (·.1) := fun k => by
    rw [(hold.map _).mem_iff, (hnew.map _).mem_iff]
    rfl
  refine ⟨fun _ => OrderedMap.contains_iff.2 ((hkeys _).1
    (OrderedMap.contains_iff.1 (h.contains_entry hb))), fun e he k hk => (hkeys k).1 ?_⟩
  rcases List.mem_cons.1 (hnew.mem_iff.1 he) with rfl | he
  · exact h.closed _ (OrderedMap.mem_entries_iff.2 hb) k (hb' k hk)
  · exact h.closed e (OrderedMap.mem_of_mem_erase he) k hk

theorem Labelled.removeInstr (h : f.Labelled) (hr : f.removeInstr pos = .ok (i, g)) :
    g.Labelled := by
  cases hb : f.body.find? pos.label with
  | none => simp [Func.removeInstr, hb] at hr
  | some b =>
      obtain ⟨-, rfl⟩ := removeInstr_eq_ok hr hb
      refine h.insert hb fun k hk => ?_
      rcases List.mem_append.1 hk with hk | hk
      · exact List.mem_append_left _ hk
      · obtain ⟨j, hj, hk⟩ := List.mem_flatMap.1 hk
        exact List.mem_append_right _ (List.mem_flatMap.2 ⟨j, List.mem_of_mem_eraseIdx hj, hk⟩)

/-- The body of the callee brings its labels with it. -/
theorem Labelled.splice {caller callee : Func} {call : Call} {cont : Label}
    (hcaller : caller.Labelled) (hcallee : callee.Labelled) (hdef : callee.isDeclaration = false)
    (hs : Inline.splice caller call callee pos = .ok (cont, f))
    (hcall : caller.callAt pos = .ok call) : f.Labelled := by
  obtain ⟨b, hb, -, -, -, -⟩ := Inline.splice_eq_ok hs hcall
  refine ⟨fun _ => ?_, Inline.closed_splice hs hcall hcaller.closed hcallee.closed
    (hcallee.entry hdef)⟩
  exact Inline.contains_splice hs hcall (hcaller.contains_entry hb)

theorem lt_nextReg_of_code {code : List Instr} (h : f.code.Perm code) :
    ∀ r ∈ destsOf code, r < f.nextReg := by
  intro r hr
  refine lt_nextReg_of_mem_dests ?_
  rw [← destsOf_code]
  exact (destsOf_perm h).mem_iff.2 hr

theorem mem_reads_iff : r ∈ f.reads ↔ .reg r ∈ f.mentions := by
  have hblock (b : Block) : r ∈ b.reads ↔ .reg r ∈ b.mentions := by
    simp only [Block.reads, Block.operands, Block.mentions, List.filterMap_append,
      List.filterMap_flatMap, List.mem_append, List.mem_flatMap, ← Instr.mem_reads_iff]
    simp [Instr.reads]
  simp only [reads, mentions, List.mem_flatMap, hblock]

/-- The registers of an edited body are those of what came in and of what was there. -/
theorem nextReg_le_of_code {rest new : List Instr} {newExits : List Operand} {n : Reg}
    (hcode : g.code.Perm (new ++ rest)) (hexits : g.exits.Perm (newExits ++ f.exits))
    (hrest : rest ⊆ f.code) (hn : f.nextReg ≤ n) (hdests : ∀ r ∈ destsOf new, r < n)
    (hmentions : ∀ r, .reg r ∈ new.flatMap Instr.mentions ++ newExits → r < n) :
    g.nextReg ≤ n := by
  have hold : ∀ r, .reg r ∈ f.mentions → r < n := fun r hr =>
    Nat.lt_of_lt_of_le (lt_nextReg_of_mem_reads (mem_reads_iff.2 hr)) hn
  refine nextReg_le fun r hr => ?_
  rcases List.mem_append.1 hr with hr | hr
  · rw [dests_eq_code, ((hcode.filterMap _).mem_iff), List.filterMap_append, List.mem_append] at hr
    rcases hr with hr | hr
    · exact hdests r hr
    · obtain ⟨i, hi, hd⟩ := List.mem_filterMap.1 hr
      have hmem := mem_destsOf.2 ⟨i, hrest hi, hd⟩
      exact Nat.lt_of_lt_of_le (lt_nextReg_of_code (List.Perm.refl _) r hmem) hn
  · rw [mem_reads_iff, mem_mentions_iff, (hcode.flatMap_right _).mem_iff, hexits.mem_iff,
      List.flatMap_append, List.mem_append, List.mem_append] at hr
    rcases hr with (hr | hr) | hr | hr
    · exact hmentions r (List.mem_append_left _ hr)
    · obtain ⟨i, hi, hop⟩ := List.mem_flatMap.1 hr
      exact hold r (mem_mentions_iff.2 (Or.inl (List.mem_flatMap.2 ⟨i, hrest hi, hop⟩)))
    · exact hmentions r (List.mem_append_right _ hr)
    · exact hold r (mem_mentions_iff.2 (Or.inr hr))

theorem lt_nextReg_of_mem_args {call : Call} (hcall : f.HasCall call) (hr : .reg r ∈ call.args) :
    r < f.nextReg :=
  lt_nextReg_of_mem_reads (mem_reads_iff.2 (mem_mentions_iff.2 (Or.inl
    (List.mem_flatMap.2 ⟨_, hasCall_iff_code.1 hcall, List.mem_cons_of_mem _ hr⟩))))

/-- A body stays in single-assignment form when a call that does not read its own result is
inlined. -/
theorem Checked.splice {caller callee : Func} {call : Call} {cont : Label}
    (hcaller : caller.Checked) (hcallee : callee.Checked) (hdef : callee.isDeclaration = false)
    (hs : Inline.splice caller call callee pos = .ok (cont, f))
    (hcall : caller.callAt pos = .ok call)
    (hself : ∀ d, call.dest = some d → .reg d ∉ call.args) : f.Checked := by
  obtain ⟨rest, pasted, hcode, hcode', hpasted, hexits⟩ := Inline.code_splice hs hcall
  obtain ⟨-, -, -, -, hbody, -⟩ := Inline.splice_eq_ok hs hcall
  obtain ⟨hlabels, hscoped⟩ := checked_iff.1 hcaller
  obtain ⟨hlabels', hscoped'⟩ := checked_iff.1 hcallee
  refine checked_iff.2 ⟨hlabels.splice hlabels' hdef hs hcall, ?_⟩
  rw [hbody]
  refine Scoped.of_perm ?_ hcode'.symm hexits.symm
  exact (hscoped.of_perm hcode (List.Perm.refl _)).splice hscoped' rfl (lt_nextReg_of_code hcode)
    trivial hpasted (fun e he => Splice.mem_returns he) hself

namespace WellFormed

theorem params_removeInstr (hr : f.removeInstr pos = .ok (i, g)) : g.params = f.params := by
  cases hb : f.body.find? pos.label with
  | none => simp [Func.removeInstr, hb] at hr
  | some b =>
      obtain ⟨-, rfl⟩ := removeInstr_eq_ok hr hb
      rfl

/-- An instruction without a result may go. -/
theorem removeInstr (h : f.WellFormed m) (hr : f.removeInstr pos = .ok (i, g))
    (hdest : i.dest? = none) : g.WellFormed m := by
  obtain ⟨hcode, hexits⟩ := code_removeInstr hr
  refine ⟨h.labels.removeInstr hr, ?_⟩
  rw [params_removeInstr hr]
  exact (h.code.of_perm hcode hexits).drop fun r hd => by simp [hdest] at hd

/-- An instruction may go if its result is read as a value that ranks below it. -/
theorem replaceReads (h : f.WellFormed m) (hr : f.removeInstr pos = .ok (i, g))
    (hdest : i.dest? = some r) {value : Operand}
    (hvalue : value.InScope m.Live f.params.length f.dests)
    (hrank : ∀ rank, RankedBy rank f.code → ∀ s, value = .reg s → rank s < rank r) :
    (g.replaceReads r value).2.WellFormed m := by
  obtain ⟨hcode, hexits⟩ := code_removeInstr hr
  have hperm := h.code.of_perm hcode hexits
  obtain ⟨rank, hranked⟩ := h.code.ranked
  refine ⟨(h.labels.removeInstr hr).mapBlocks (by simp [Block.mapOperands]) (by simp), ?_⟩
  change WellScoped _ (g.mapBlocks _).params.length _ _
  rw [Func.replaceReads, code_mapOperands, exits_mapOperands, Func.mapBlocks,
    params_removeInstr hr]
  refine hperm.subst (by simpa using hdest) (hvalue.mono fun s _ hs => ?_)
    ⟨rank, ?_, hrank rank hranked⟩
  · exact (destsOf_perm hcode).mem_iff.1 (destsOf_code f ▸ hs)
  · exact fun j hj => hranked j (hcode.mem_iff.2 hj)

theorem setCallConv (h : f.WellFormed m) (id : FuncId) (conv : CallConv) :
    (f.mapBlocks (Block.setCallConv id conv)).WellFormed m := by
  refine ⟨h.labels.mapBlocks (fun _ => rfl) fun b => ?_, ?_⟩
  · simp [Block.phiLabels, Block.setCallConv, List.flatMap_map]
  · have hcode : (f.mapBlocks (Block.setCallConv id conv)).code =
        f.code.map (Instr.setCallConv id conv) :=
      code_mapBlocks fun b => by simp [Block.setCallConv, Function.comp_def]
    have hexits : (f.mapBlocks (Block.setCallConv id conv)).exits = f.exits.map fun op => op :=
      exits_mapBlocks fun b => by simp [Block.setCallConv]
    rw [hcode, hexits]
    refine h.code.map (by simp) (by simp) (by simp) (fun _ _ hop => hop) (fun _ _ hop => hop)
      fun i c hc => ?_
    obtain ⟨c₀, rfl, hcallee⟩ := Instr.exists_of_setCallConv_eq_call id conv i hc
    exact ⟨c₀, rfl, fun id' hid => ⟨id', hcallee ▸ hid⟩⟩

/-- References to functions may be redirected to others that are there. -/
theorem mapFuncs (h : f.WellFormed m) {k : FuncId → FuncId}
    (hlive : ∀ op, m.Live op → m'.Live (op.mapFunc k)) :
    (f.mapBlocks (Block.mapFuncs k)).WellFormed m' := by
  refine ⟨h.labels.mapBlocks (by simp [Block.mapFuncs]) fun b => ?_, ?_⟩
  · simp [Block.phiLabels, Block.mapFuncs, List.flatMap_map]
  · have hcode : (f.mapBlocks (Block.mapFuncs k)).code = f.code.map (Instr.mapFuncs k) :=
      code_mapBlocks fun b => by simp [Block.mapFuncs, Function.comp_def]
    have hexits : (f.mapBlocks (Block.mapFuncs k)).exits = f.exits.map (Operand.mapFunc k) :=
      exits_mapBlocks fun b => by simp [Block.mapFuncs]
    rw [hcode, hexits]
    refine h.code.map (by simp) (by simp) (by simp) (fun op ds hop => ?_) (fun op r hop => ?_)
      fun i c hc => ?_
    · cases op with
      | reg _ | arg _ => exact hop
      | imm c => exact hlive (.imm c) hop
      | func id => exact hlive (.func id) hop
      | global id => exact hlive (.global id) hop
      | undefined => exact hlive .undefined hop
    · cases op with
      | reg _ => exact hop
      | _ => cases hop
    · obtain ⟨c₀, rfl, hresolve⟩ := Instr.exists_of_mapFuncs_eq_call k i hc
      exact ⟨c₀, rfl, fun id hid => ⟨k id, by rw [hresolve, hid, Option.map_some]⟩⟩

/-- A call may be inlined. -/
theorem splice {caller callee : Func} {call : Call} {cont : Label} (hcaller : caller.WellFormed m)
    (hcallee : callee.WellFormed m) (hdef : callee.isDeclaration = false)
    (hs : Inline.splice caller call callee pos = .ok (cont, f))
    (hcall : caller.callAt pos = .ok call) : f.WellFormed m := by
  obtain ⟨rest, pasted, hcode, hcode', hpasted, hexits⟩ := Inline.code_splice hs hcall
  obtain ⟨-, -, -, -, hbody, -⟩ := Inline.splice_eq_ok hs hcall
  refine ⟨hcaller.labels.splice hcallee.labels hdef hs hcall, ?_⟩
  rw [hbody]
  refine WellScoped.of_perm ?_ hcode'.symm hexits.symm
  exact (hcaller.code.of_perm hcode (List.Perm.refl _)).splice hcallee.code rfl
    (lt_nextReg_of_code hcode) trivial hpasted fun e he => Splice.mem_returns he

end WellFormed

end Edits

end Func

end KernelIR
