import KernelIR.Func.Check
import KernelIR.Proofs.Execution
import KernelIR.Proofs.Body
import Mathlib

/-!
# Definitions and paths

A register is safe to read where no path from the entry avoids its definition.  The operands that
are replaced by others when a call is inlined stay good because of `avoids_of_def`.
-/

namespace KernelIR

theorem eq_of_nodup_filterMap {α β : Type} {g : α → Option β} {xs : List α}
    (h : (xs.filterMap g).Nodup) {x y : α} {b : β} (hx : x ∈ xs) (hy : y ∈ xs) (hgx : g x = some b)
    (hgy : g y = some b) : x = y := by
  by_contra hne
  have hsymm : Std.Symm fun x y : α => ∀ c, g x = some c → ∀ c', g y = some c' → c ≠ c' :=
    ⟨fun _ _ hxy c hc c' hc' heq => hxy c' hc' c hc heq.symm⟩
  exact (List.pairwise_filterMap.1 h).forall hx hy hne b hgx b hgy rfl

namespace Func

theorem instr?_eq_some_iff {f : Func} {pos : Position} {i : Instr} :
    f.instr? pos = some i ↔
      ∃ b, f.body.find? pos.label = some b ∧ b.instrs[pos.index]? = some i := by
  rw [instr?, Option.bind_eq_some_iff]

theorem dests_eq (f : Func) : f.dests = f.instrs.filterMap fun e => e.2.dest? := by
  simp only [dests, instrs, OrderedMap.values, List.filterMap_flatMap, List.flatMap_map,
    List.filterMap_map]
  refine congrArg (fun g => f.body.entries.flatMap g) (funext fun e => ?_)
  have h : (fun x : Instr × Nat => x.1.dest?) = Instr.dest? ∘ Prod.fst := rfl
  calc e.2.dests = (e.2.instrs.zipIdx.map Prod.fst).filterMap Instr.dest? := by
        rw [List.zipIdx_map_fst]
        rfl
    _ = _ := by
        rw [List.filterMap_map]
        rfl

structure Checked (f : Func) : Prop where
  entry : f.isDeclaration = false → f.body.contains .entry = true
  nodup : f.dests.Nodup
  reads : ∀ l b, f.body.find? l = some b → ∀ op ∈ b.operands, f.operandFault? op = none
  labels : ∀ l b, f.body.find? l = some b → ∀ k ∈ b.terminator.targets ++ b.phiLabels,
    f.body.contains k = true

theorem Checked.of_checkSSA {f : Func} (h : f.checkSSA = .ok ()) : f.Checked := by
  have hfault : f.ssaFault? = none := by
    rw [checkSSA] at h
    split at h
    · next hf => exact hf
    · cases h
  rw [ssaFault?] at hfault
  split_ifs at hfault with hdecl hentry
  · have hnil : f.body.entries = [] := by simpa [isDeclaration, OrderedMap.isEmpty] using hdecl
    have hnone : ∀ l b, f.body.find? l ≠ some b := by
      intro l b hb
      have hmem := OrderedMap.mem_entries_iff.2 hb
      rw [hnil] at hmem
      exact (List.not_mem_nil hmem).elim
    exact ⟨by simp [hdecl], by simp [dests, OrderedMap.values, hnil],
      fun l b hb => absurd hb (hnone l b), fun l b hb => absurd hb (hnone l b)⟩
  · obtain ⟨hrepeat, hblocks⟩ := Option.or_eq_none_iff.1 hfault
    have hblock : ∀ l b, f.body.find? l = some b → f.blockFault? b = none := fun l b hb =>
      List.findSome?_eq_none_iff.1 hblocks b
        (List.mem_map_of_mem (OrderedMap.mem_entries_iff.2 hb))
    refine ⟨fun _ => by simpa using hentry, firstRepeat?_eq_none_iff.1
      (Option.map_eq_none_iff.1 hrepeat), fun l b hb op hop => ?_, fun l b hb k hk => ?_⟩
    · exact List.findSome?_eq_none_iff.1 (Option.or_eq_none_iff.1 (hblock l b hb)).1 op hop
    · have hlabel := List.findSome?_eq_none_iff.1 (Option.or_eq_none_iff.1 (hblock l b hb)).2 k hk
      rw [labelFault?] at hlabel
      split_ifs at hlabel with hc
      exact hc

theorem Checked.def_unique {f : Func} (h : f.Checked) {pos pos' : Position} {i i' : Instr}
    {r : Reg} (hi : f.instr? pos = some i) (hr : i.dest? = some r) (hi' : f.instr? pos' = some i')
    (hr' : i'.dest? = some r) : pos = pos' := by
  have hmem := mem_instrs_iff.2 (instr?_eq_some_iff.1 hi)
  have hmem' := mem_instrs_iff.2 (instr?_eq_some_iff.1 hi')
  have hnodup := h.nodup
  rw [dests_eq] at hnodup
  exact (Prod.mk.inj (eq_of_nodup_filterMap hnodup hmem hmem' hr hr')).1

theorem Checked.nextLabel_not_mem_targets {f : Func} (h : f.Checked) {label : Label} {b : Block}
    (hb : f.body.find? label = some b) : f.nextLabel ∉ b.terminator.targets := by
  intro hmem
  have hin := h.labels label b hb _ (List.mem_append_left _ hmem)
  rw [f.contains_nextLabel] at hin
  cases hin

theorem Checked.lt_nextReg {f : Func} (h : f.Checked) {l : Label} {b : Block} {r : Reg}
    (hb : f.body.find? l = some b) (hr : .reg r ∈ b.operands) : r < f.nextReg := by
  have hfault := h.reads l b hb _ hr
  simp only [operandFault?] at hfault
  split_ifs at hfault with hmem
  exact lt_nextReg_of_mem_dests hmem

theorem Checked.lt_params {f : Func} (h : f.Checked) {l : Label} {b : Block} {index : Nat}
    (hb : f.body.find? l = some b) (hop : .arg index ∈ b.operands) : index < f.params.length := by
  have hfault := h.reads l b hb _ hop
  simp only [operandFault?] at hfault
  split_ifs at hfault with hlt
  exact hlt

/-- The positions that a path from the entry through `ok` instructions leads to. -/
inductive Path (f : Func) (ok : Instr → Prop) : Position → Prop
  | entry : Path f ok ⟨.entry, 0⟩
  | next {pos : Position} {i : Instr} (h : Path f ok pos) (hi : f.instr? pos = some i)
      (hok : ok i) : Path f ok ⟨pos.label, pos.index + 1⟩
  | edge {l l' : Label} {b : Block} (hb : f.body.find? l = some b)
      (h : Path f ok ⟨l, b.instrs.length⟩) (hl : l' ∈ b.terminator.targets) : Path f ok ⟨l', 0⟩

def Reaches (f : Func) : Position → Prop := f.Path fun _ => True

def Avoids (f : Func) (r : Reg) : Position → Prop := f.Path fun i => i.dest? ≠ some r

theorem Path.block {f : Func} {ok : Instr → Prop} {pos : Position} (h : f.Path ok pos)
    (hf : f.Checked) (hdef : f.isDeclaration = false) :
    ∃ b, f.body.find? pos.label = some b ∧ pos.index ≤ b.instrs.length := by
  cases h with
  | entry =>
      obtain ⟨b, hb⟩ := Option.isSome_iff_exists.1 (hf.entry hdef)
      exact ⟨b, hb, Nat.zero_le _⟩
  | next _ hi _ =>
      obtain ⟨b, hb, hi⟩ := instr?_eq_some_iff.1 hi
      exact ⟨b, hb, (List.getElem?_eq_some_iff.1 hi).1⟩
  | @edge l l' b hb _ hl =>
      obtain ⟨b', hb'⟩ := Option.isSome_iff_exists.1
        (hf.labels l b hb l' (List.mem_append_left _ hl))
      exact ⟨b', hb', Nat.zero_le _⟩

theorem Path.eq_end {f : Func} {ok : Instr → Prop} {pos : Position} (h : f.Path ok pos)
    (hf : f.Checked) (hdef : f.isDeclaration = false) {b : Block}
    (hb : f.body.find? pos.label = some b) (hend : b.instrs[pos.index]? = none) :
    pos = ⟨pos.label, b.instrs.length⟩ := by
  obtain ⟨b', hb', hle⟩ := h.block hf hdef
  obtain rfl : b = b' := Option.some.inj (hb.symm.trans hb')
  rw [← Nat.le_antisymm hle (List.getElem?_eq_none_iff.1 hend)]

theorem getElem?_leadingPhis {is : List Instr} {n : Nat} {p : Phi}
    (h : (leadingPhis is)[n]? = some p) : is[n]? = some (.phi p) := by
  induction is generalizing n with
  | nil => simp [leadingPhis] at h
  | cons i is ih =>
      cases i with
      | phi q =>
          cases n with
          | zero => simpa [leadingPhis] using h
          | succ n => exact ih (by simpa [leadingPhis] using h)
      | _ => simp [leadingPhis] at h

theorem instr?_leadingPhis {f : Func} {l : Label} {b : Block} (hb : f.body.find? l = some b)
    {n : Nat} {p : Phi} (h : (leadingPhis b.instrs)[n]? = some p) :
    f.instr? ⟨l, n⟩ = some (.phi p) :=
  instr?_eq_some_iff.2 ⟨b, hb, getElem?_leadingPhis h⟩

theorem exists_instr?_of_mem_dests {f : Func} {l : Label} {b : Block}
    (hb : f.body.find? l = some b) {r : Reg} (hr : r ∈ (leadingPhis b.instrs).map Phi.dest) :
    ∃ n p, n < (leadingPhis b.instrs).length ∧ f.instr? ⟨l, n⟩ = some (.phi p) ∧ p.dest = r := by
  obtain ⟨p, hp, hpr⟩ := List.mem_map.1 hr
  obtain ⟨n, hn⟩ := List.mem_iff_getElem?.1 hp
  exact ⟨n, p, (List.getElem?_eq_some_iff.1 hn).1, instr?_leadingPhis hb hn, hpr⟩

theorem mem_of_mem_leadingPhis {is : List Instr} {p : Phi} (h : p ∈ leadingPhis is) :
    .phi p ∈ is := by
  obtain ⟨n, hn⟩ := List.mem_iff_getElem?.1 h
  exact List.mem_of_getElem? (getElem?_leadingPhis hn)

theorem mem_of_mem_incoming {b : Block} {p : Phi} (hp : p ∈ leadingPhis b.instrs)
    {e : Label × Operand} (he : e ∈ p.incoming) : e.2 ∈ b.operands ∧ e.1 ∈ b.phiLabels := by
  have hmem := mem_of_mem_leadingPhis hp
  exact ⟨List.mem_append_left _ (List.mem_flatMap.2 ⟨_, hmem, List.mem_map_of_mem he⟩),
    List.mem_flatMap.2 ⟨_, hmem, List.mem_map_of_mem he⟩⟩

theorem Path.phis {f : Func} {ok : Instr → Prop} {l : Label} {b : Block} {n : Nat}
    (hb : f.body.find? l = some b) (h : f.Path ok ⟨l, n⟩)
    (hok : ∀ k p, n ≤ k → (leadingPhis b.instrs)[k]? = some p → ok (.phi p)) {k : Nat}
    (hnk : n ≤ k) (hk : k ≤ (leadingPhis b.instrs).length) : f.Path ok ⟨l, k⟩ := by
  induction hnk with
  | refl => exact h
  | @step k hnk ih =>
      have hp : (leadingPhis b.instrs)[k]? = some (leadingPhis b.instrs)[k] :=
        List.getElem?_eq_getElem hk
      exact .next (ih (Nat.le_of_succ_le hk)) (instr?_leadingPhis hb hp) (hok k _ hnk hp)

/-- Before the first definition of `a`, no path has come to a definition of `d`, if that reads
`a` and all paths to it define `a`. -/
theorem Checked.avoids_of_def {f : Func} (hf : f.Checked) {a d : Reg} {pos site : Position}
    {i c : Instr} (hc : f.instr? site = some c) (hd : c.dest? = some d)
    (hsite : ¬f.Avoids a site) (hi : f.instr? pos = some i) (ha : i.dest? = some a)
    (h : f.Reaches pos) : f.Avoids d pos := by
  have key : ∀ pos', f.Reaches pos' → f.Avoids d pos ∨ (f.Avoids a pos' ∧ f.Avoids d pos') := by
    intro pos' h'
    induction h' with
    | entry => exact Or.inr ⟨.entry, .entry⟩
    | @next pos' i' _ hi' _ ih =>
        rcases ih with ih | ⟨iha, ihd⟩
        · exact Or.inl ih
        · by_cases hia : i'.dest? = some a
          · rw [hf.def_unique hi ha hi' hia]
            exact Or.inl ihd
          · refine Or.inr ⟨.next iha hi' hia, .next ihd hi' fun hid => ?_⟩
            rw [hf.def_unique hc hd hi' hid] at hsite
            exact hsite iha
    | edge hb _ hl ih =>
        exact ih.imp_right fun ⟨iha, ihd⟩ => ⟨.edge hb iha hl, .edge hb ihd hl⟩
  exact (key pos h).elim id And.right

def Precedes (f : Func) (k l : Label) : Prop :=
  ∃ b, f.body.find? k = some b ∧ l ∈ b.terminator.targets

/-- Every register that is read is defined on all paths to the read; what a phi reads is read at
the end of the block that it names. -/
structure Strict (f : Func) : Prop where
  phis_lead : ∀ l b, f.body.find? l = some b → ∀ n p, b.instrs[n]? = some (.phi p) →
    n < (leadingPhis b.instrs).length
  no_entry_phi : ∀ b, f.body.find? .entry = some b → leadingPhis b.instrs = []
  phi_labels : ∀ l b, f.body.find? l = some b → ∀ p ∈ leadingPhis b.instrs, ∀ k,
    k ∈ p.incoming.map (·.1) ↔ f.Precedes k l
  reads : ∀ pos i, f.instr? pos = some i → (∀ p, i ≠ .phi p) → ∀ r ∈ i.reads, ¬f.Avoids r pos
  end_reads : ∀ l b, f.body.find? l = some b → ∀ r ∈ b.terminator.reads,
    ¬f.Avoids r ⟨l, b.instrs.length⟩
  phi_reads : ∀ l b, f.body.find? l = some b → ∀ p ∈ leadingPhis b.instrs, ∀ k r,
    (k, .reg r) ∈ p.incoming → ∀ b', f.body.find? k = some b' → ¬f.Avoids r ⟨k, b'.instrs.length⟩
  no_self_read : ∀ pos c, f.callAt pos = .ok c → ∀ d, c.dest = some d →
    d ∉ (Instr.call c).reads

/-- Straight-line code that defines each register before it reads it is in strict form. -/
theorem Strict.of_straight {f : Func} {b : Block} (hbody : f.body.entries = [(.entry, b)])
    (htargets : b.terminator.targets = [])
    (hphi : ∀ i ∈ b.instrs, i.op?.isSome ∨ i.call?.isSome)
    (hreads : ∀ e ∈ b.instrs.zipIdx, ∀ r ∈ e.1.reads, r ∈ (b.instrs.take e.2).filterMap Instr.dest?)
    (hend : ∀ r ∈ b.terminator.reads, r ∈ b.dests)
    (hself : ∀ i ∈ b.instrs, ∀ r ∈ i.reads, i.dest? ≠ some r) : f.Strict := by
  have hfind : ∀ l b', f.body.find? l = some b' → l = .entry ∧ b' = b := by
    intro l b' hb'
    have hmem := OrderedMap.mem_entries_iff.2 hb'
    rw [hbody] at hmem
    exact Prod.mk.inj (List.mem_singleton.1 hmem)
  have hnophi : ∀ p, .phi p ∉ b.instrs := by
    intro p hp
    have h := hphi _ hp
    simp [Instr.op?, Instr.call?] at h
  have hlead : leadingPhis b.instrs = [] := List.eq_nil_iff_forall_not_mem.2 fun p hp =>
    hnophi p (mem_of_mem_leadingPhis hp)
  have hpath : ∀ r pos, f.Avoids r pos → r ∉ (b.instrs.take pos.index).filterMap Instr.dest? := by
    intro r pos h
    induction h with
    | entry => simp
    | @next pos i _ hi hok ih =>
        obtain ⟨b', hb', hi⟩ := instr?_eq_some_iff.1 hi
        obtain ⟨-, rfl⟩ := hfind _ b' hb'
        rw [List.take_add_one, hi, List.filterMap_append]
        simpa using ⟨by simpa using ih, hok⟩
    | edge hb _ hl _ =>
        obtain ⟨-, rfl⟩ := hfind _ _ hb
        rw [htargets] at hl
        exact nomatch hl
  refine ⟨?_, ?_, ?_, ?_, ?_, ?_, ?_⟩
  · intro l b' hb' n p hp
    obtain ⟨-, rfl⟩ := hfind l b' hb'
    exact absurd (List.mem_of_getElem? hp) (hnophi p)
  · intro b' hb'
    rw [(hfind _ b' hb').2, hlead]
  · intro l b' hb' p hp
    rw [(hfind _ b' hb').2, hlead] at hp
    exact nomatch hp
  · intro pos i hi _ r hr hav
    obtain ⟨b', hb', hi⟩ := instr?_eq_some_iff.1 hi
    obtain ⟨-, rfl⟩ := hfind _ b' hb'
    exact hpath r pos hav (hreads (i, pos.index) (List.mem_zipIdx_iff_getElem?.2 hi) r hr)
  · intro l b' hb' r hr hav
    obtain ⟨-, rfl⟩ := hfind l b' hb'
    refine hpath r _ hav ?_
    rw [List.take_length]
    exact hend r hr
  · intro l b' hb' p hp
    rw [(hfind _ b' hb').2, hlead] at hp
    exact nomatch hp
  · intro pos c hc d hd hr
    obtain ⟨b', hb', hc⟩ := callAt_eq_ok_iff.1 hc
    obtain ⟨-, rfl⟩ := hfind _ b' hb'
    exact hself _ (List.mem_of_getElem? hc) d hr hd

end Func

end KernelIR
