import KernelIR.Proofs.Edges
import Mathlib

/-!
# Phis and predecessors

Where the phis of a body come first and name exactly the predecessors of their blocks, they still
do after a block is split, a call is inlined or a memory call becomes a loop.  All three cut a
block, so that one lemma about cuts serves them.
-/

namespace KernelIR

namespace Instr

def isPhi : Instr → Bool
  | phi _ => true
  | _ => false

@[simp] theorem isPhi_mapOperands (g : Operand → Operand) (i : Instr) :
    (i.mapOperands g).isPhi = i.isPhi := by
  cases i <;> rfl

@[simp] theorem isPhi_mapPhiLabels (g : Label → Label) (i : Instr) :
    (i.mapPhiLabels g).isPhi = i.isPhi := by
  cases i <;> rfl

@[simp] theorem isPhi_mapDest (g : Reg → Reg) (i : Instr) : (i.mapDest g).isPhi = i.isPhi := by
  cases i <;> rfl

end Instr

/-- No phi stands behind another instruction. -/
def PhisFirst (is : List Instr) : Prop :=
  is.Pairwise fun i j => j.isPhi = true → i.isPhi = true

section PhisFirst

variable {is js : List Instr}

theorem PhisFirst.of_noPhi (h : ∀ i ∈ is, i.isPhi = false) : PhisFirst is :=
  List.pairwise_iff_forall_sublist.2 fun {i j} hs hj => by
    rw [h j (hs.subset (by simp))] at hj
    cases hj

theorem PhisFirst.sublist (h : PhisFirst is) (hs : List.Sublist js is) : PhisFirst js :=
  List.Pairwise.sublist hs h

theorem PhisFirst.map {g : Instr → Instr} (hg : ∀ i, (g i).isPhi = i.isPhi) (h : PhisFirst is) :
    PhisFirst (is.map g) :=
  List.pairwise_map.2 (h.imp fun {i j} hij => by rwa [hg, hg])

theorem PhisFirst.append_noPhi (h : PhisFirst is) (hjs : ∀ i ∈ js, i.isPhi = false) :
    PhisFirst (is ++ js) :=
  List.pairwise_append.2 ⟨h, PhisFirst.of_noPhi hjs, fun i _ j hj hphi => by
    rw [hjs j hj] at hphi
    cases hphi⟩

theorem PhisFirst.phis_append (ps : List Phi) (h : PhisFirst is) :
    PhisFirst (ps.map .phi ++ is) := by
  refine List.pairwise_append.2 ⟨?_, h, fun i hi _ _ _ => ?_⟩
  · rw [List.pairwise_map]
    exact List.pairwise_of_forall_mem_list fun _ _ _ _ _ => rfl
  · obtain ⟨p, -, rfl⟩ := List.mem_map.1 hi
    rfl

/-- There are no phis from an instruction on that is none. -/
theorem PhisFirst.noPhi_drop (h : PhisFirst is) {n : Nat} {i : Instr} (hi : is[n]? = some i)
    (hnot : i.isPhi = false) : ∀ j ∈ is.drop n, j.isPhi = false := by
  obtain ⟨hn, rfl⟩ := List.getElem?_eq_some_iff.1 hi
  intro j hj
  have hd := h.sublist (List.drop_sublist n is)
  rw [List.drop_eq_getElem_cons hn] at hd hj
  rcases List.mem_cons.1 hj with rfl | hj
  · exact hnot
  · have hlead := (List.pairwise_cons.1 hd).1 j hj
    rw [hnot] at hlead
    simpa using hlead

end PhisFirst

/-- The phis of a block come first and name exactly the labels in `preds`. -/
structure Block.Agrees (preds : Label → Prop) (b : Block) : Prop where
  first : PhisFirst b.instrs
  names : ∀ i ∈ b.instrs, i.isPhi = true → ∀ k, k ∈ i.phiLabels ↔ preds k

/-- Phis come first, and name exactly the blocks whose terminators lead to theirs. -/
def Func.PhiConsistent (f : Func) : Prop :=
  ∀ l b, f.body.find? l = some b → b.Agrees fun k => f.Precedes k l

/-- The blocks agree with the edges between them. -/
def AllAgree (es : List (Label × Block)) : Prop := ∀ e ∈ es, e.2.Agrees fun k => Leads es k e.1

theorem Block.Agrees.congr {preds preds' : Label → Prop} {b : Block} (h : b.Agrees preds)
    (hp : ∀ k, preds k ↔ preds' k) : b.Agrees preds' :=
  ⟨h.first, fun i hi hphi k => (h.names i hi hphi k).trans (hp k)⟩

theorem Block.Agrees.of_noPhi {b : Block} (h : ∀ i ∈ b.instrs, i.isPhi = false)
    (preds : Label → Prop) : b.Agrees preds :=
  ⟨.of_noPhi h, fun i hi hphi => by
    rw [h i hi] at hphi
    cases hphi⟩

theorem Func.phiConsistent_iff_of_perm {f : Func} {es : List (Label × Block)}
    (h : f.body.entries.Perm es) : f.PhiConsistent ↔ AllAgree es := by
  have hpreds : ∀ k l, f.Precedes k l ↔ Leads es k l := fun k l =>
    precedes_iff_leads.trans (leads_of_perm h)
  constructor
  · rintro hf ⟨l, b⟩ he
    exact (hf l b (find?_of_mem_entries (h.mem_iff.2 he))).congr fun k => hpreds k l
  · intro hes l b hb
    exact (hes (l, b) (h.mem_iff.1 (OrderedMap.mem_entries_iff.2 hb))).congr fun k =>
      (hpreds k l).symm

instance (es : List (Label × Block)) (k l : Label) : Decidable (Leads es k l) :=
  inferInstanceAs (Decidable (∃ e ∈ es, e.1 = k ∧ l ∈ e.2.terminator.targets))

instance (is : List Instr) : Decidable (PhisFirst is) :=
  inferInstanceAs (Decidable (is.Pairwise _))

theorem allAgree_iff {es : List (Label × Block)} :
    AllAgree es ↔ ∀ e ∈ es, PhisFirst e.2.instrs ∧ ∀ i ∈ e.2.instrs, i.isPhi = true →
      (∀ k ∈ i.phiLabels, Leads es k e.1) ∧
        ∀ e' ∈ es, e.1 ∈ e'.2.terminator.targets → e'.1 ∈ i.phiLabels := by
  refine forall₂_congr fun e _ => ⟨fun h => ⟨h.first, fun i hi hphi => ⟨fun k hk => ?_,
    fun e' he' hl => ?_⟩⟩, fun h => ⟨h.1, fun i hi hphi k => ⟨fun hk => ?_, ?_⟩⟩⟩
  · exact (h.names i hi hphi k).1 hk
  · exact (h.names i hi hphi e'.1).2 ⟨e', he', rfl, hl⟩
  · exact (h.2 i hi hphi).1 k hk
  · rintro ⟨e', he', rfl, hl⟩
    exact (h.2 i hi hphi).2 e' he' hl

instance (f : Func) : Decidable f.PhiConsistent :=
  decidable_of_iff _
    (allAgree_iff.symm.trans (Func.phiConsistent_iff_of_perm (List.Perm.refl _)).symm)

namespace Func

variable {f g : Func} {label : Label} {b : Block}

theorem noPhi_followTail {targets : List Label} {old new : Label} {e : Label × Block}
    (h : ∀ i ∈ e.2.instrs, i.isPhi = false) :
    ∀ i ∈ (followTail targets old new e).2.instrs, i.isPhi = false := by
  by_cases he : e.1 ∈ targets
  · simp only [followTail, he, if_true]
    intro i hi
    obtain ⟨i₀, hi₀, rfl⟩ := List.mem_map.1 hi
    rw [Instr.isPhi_mapPhiLabels]
    exact h i₀ hi₀
  · simpa only [followTail, he, if_false] using h

/-- Phis that name the predecessors name those behind a cut too, once they follow the tail. -/
theorem agrees_followTail {targets : List Label} {old new : Label} {e : Label × Block}
    {preds preds' : Label → Prop} (h : e.2.Agrees preds) (hold : preds old ↔ e.1 ∈ targets)
    (hpreds : ∀ k, preds' k ↔ (preds k ∧ k ≠ old) ∨ (k = new ∧ e.1 ∈ targets)) :
    (followTail targets old new e).2.Agrees preds' := by
  by_cases he : e.1 ∈ targets
  · simp only [followTail, he, if_true]
    refine ⟨h.first.map (Instr.isPhi_mapPhiLabels _), fun i hi hphi k => ?_⟩
    obtain ⟨i₀, hi₀, rfl⟩ := List.mem_map.1 hi
    rw [Instr.isPhi_mapPhiLabels] at hphi
    have hnames := h.names i₀ hi₀ hphi
    rw [Instr.phiLabels_mapPhiLabels, List.mem_map, hpreds]
    constructor
    · rintro ⟨k₀, hk₀, rfl⟩
      rw [relabel]
      split_ifs with hk
      · exact Or.inr ⟨rfl, he⟩
      · exact Or.inl ⟨(hnames k₀).1 hk₀, hk⟩
    · rintro (⟨hk, hne⟩ | ⟨rfl, -⟩)
      · exact ⟨k, (hnames k).2 hk, by rw [relabel, if_neg hne]⟩
      · exact ⟨old, (hnames old).2 (hold.2 he), by rw [relabel, if_pos rfl]⟩
  · simp only [followTail, he, if_false]
    refine h.congr fun k => ?_
    rw [hpreds, and_iff_left_of_imp, or_iff_left]
    · exact fun hk => he hk.2
    · rintro hk rfl
      exact he (hold.1 hk)

/-- A cut keeps phis and predecessors in step.  The blocks that are added lead to one another, to
the tail and nowhere else. -/
theorem PhiConsistent.cutBlocks (h : f.PhiConsistent) (hclosed : Closed f.body.entries)
    (hb : f.body.find? label = some b) {first second : List Instr} {t : Terminator}
    {blocks : List (Label × Block)} (hfirst : PhisFirst first)
    (hphis : ∀ i ∈ first, i.isPhi = true → i ∈ b.instrs)
    (hsecond : ∀ i ∈ second, i.isPhi = false) (ht : ∀ k ∈ t.targets, f.nextLabel ≤ k)
    (hlabels : ∀ e ∈ blocks, f.nextLabel < e.1)
    (htargets : ∀ e ∈ blocks, ∀ k ∈ e.2.terminator.targets, f.nextLabel ≤ k)
    (hblocks : ∀ e ∈ blocks,
      e.2.Agrees fun k => Leads blocks k e.1 ∨ (label = k ∧ e.1 ∈ t.targets)) :
    AllAgree (blocks ++ f.cutBlocks label first second t b.terminator) := by
  have hperm := OrderedMap.entries_perm_of_find? hb
  have hagree := (phiConsistent_iff_of_perm (f := f) (List.Perm.refl _)).1 h
  have hlt : ∀ l ∈ f.body.entries.map (·.1), l < f.nextLabel := fun l hl => lt_nextLabel hl
  have hlabel : label < f.nextLabel :=
    hlt _ (List.mem_map_of_mem (OrderedMap.mem_entries_iff.2 hb))
  have hold : ∀ e ∈ f.body.entries, ∀ k ∈ e.2.terminator.targets, k < f.nextLabel :=
    fun e he k hk => hlt k (hclosed e he k (List.mem_append_left _ hk))
  have hleads : ∀ k l, Leads (blocks ++ f.cutBlocks label first second t b.terminator) k l ↔
      Leads blocks k l ∨ (label = k ∧ l ∈ t.targets) ∨
        (f.nextLabel = k ∧ l ∈ b.terminator.targets) ∨ Leads (f.body.erase label).entries k l := by
    intro k l
    rw [leads_append, Func.cutBlocks, leads_followTail, leads_cons, leads_cons]
  have hrest : ∀ k l, Leads (f.body.erase label).entries k l →
      Leads f.body.entries k l ∧ k ≠ label := by
    rintro k l ⟨e, he, rfl, hl⟩
    exact ⟨⟨e, OrderedMap.mem_of_mem_erase he, rfl, hl⟩, OrderedMap.ne_of_mem_erase he⟩
  have hbody : ∀ k l, Leads f.body.entries k l ↔
      (label = k ∧ l ∈ b.terminator.targets) ∨ Leads (f.body.erase label).entries k l := by
    intro k l
    rw [leads_of_perm hperm, leads_cons]
  -- blocks that were there before: the tail stands where the cut block stood
  have hfollow : ∀ e : Label × Block, e.1 < f.nextLabel →
      e.2.Agrees (fun k => Leads f.body.entries k e.1) →
        (followTail b.terminator.targets label f.nextLabel e).2.Agrees fun k =>
          Leads (blocks ++ f.cutBlocks label first second t b.terminator) k e.1 := by
    intro e he hagrees
    refine agrees_followTail hagrees ?_ fun k => ?_
    · rw [hbody]
      refine ⟨fun h => ?_, fun h => Or.inl ⟨rfl, h⟩⟩
      rcases h with ⟨-, h⟩ | h
      · exact h
      · exact absurd rfl (hrest _ _ h).2
    · rw [hleads, hbody]
      constructor
      · rintro (⟨e', he', -, hl⟩ | ⟨-, hl⟩ | ⟨rfl, hl⟩ | hl)
        · exact absurd (htargets e' he' _ hl) (Nat.not_le.2 he)
        · exact absurd (ht _ hl) (Nat.not_le.2 he)
        · exact Or.inr ⟨rfl, hl⟩
        · exact Or.inl ⟨Or.inr hl, (hrest _ _ hl).2⟩
      · rintro (⟨⟨rfl, -⟩ | hl, hne⟩ | ⟨rfl, hl⟩)
        · exact absurd rfl hne
        · exact Or.inr (Or.inr (Or.inr hl))
        · exact Or.inr (Or.inr (Or.inl ⟨rfl, hl⟩))
  intro e he
  rcases List.mem_append.1 he with he | he
  · refine (hblocks e he).congr fun k => ?_
    rw [hleads]
    refine or_congr_right ⟨fun hk => Or.inl hk, fun hk => ?_⟩
    rcases hk with hk | ⟨-, hl⟩ | ⟨e', he', -, hl⟩
    · exact hk
    · exact absurd (hold _ (OrderedMap.mem_entries_iff.2 hb) _ hl)
        (Nat.not_lt.2 (Nat.le_of_lt (hlabels e he)))
    · exact absurd (hold e' (OrderedMap.mem_of_mem_erase he') _ hl)
        (Nat.not_lt.2 (Nat.le_of_lt (hlabels e he)))
  · obtain ⟨e₀, he₀, rfl⟩ := List.mem_map.1 he
    rcases List.mem_cons.1 he₀ with rfl | he₀
    · refine hfollow (label, ⟨first, t⟩) hlabel ⟨hfirst, fun i hi hphi => ?_⟩
      exact (hagree _ (OrderedMap.mem_entries_iff.2 hb)).names i (hphis i hi hphi) hphi
    · rcases List.mem_cons.1 he₀ with rfl | he₀
      · exact .of_noPhi (noPhi_followTail hsecond) _
      · have he₁ := OrderedMap.mem_of_mem_erase he₀
        exact hfollow e₀ (hlt _ (List.mem_map_of_mem he₁)) (hagree e₀ he₁)

/-- A block may be split behind its phis. -/
theorem PhiConsistent.splitBlock (h : f.PhiConsistent) (hclosed : Closed f.body.entries)
    {index : Nat} {fresh : Label} (hs : f.splitBlock label index = .ok (fresh, g))
    (hindex : ∀ b, f.body.find? label = some b → ∀ i ∈ b.instrs.drop index, i.isPhi = false) :
    g.PhiConsistent := by
  obtain ⟨b, hb, -, rfl, -⟩ := splitBlock_eq_ok_iff.1 hs
  refine (phiConsistent_iff_of_perm (entries_splitBlock hs hb)).2 ?_
  change AllAgree ([] ++ _)
  refine h.cutBlocks hclosed hb ((h label b hb).first.sublist (List.take_sublist _ _))
    (fun i hi _ => List.mem_of_mem_take hi) (hindex b hb) ?_ (fun e he => nomatch he)
    (fun e he => nomatch he) fun e he => nomatch he
  intro k hk
  exact Nat.le_of_eq (List.mem_singleton.1 hk).symm

end Func

namespace Splice

variable {s : Splice}

theorem label_lt (hbase : s.continuation < s.labelBase) (l : Label) : s.continuation < s.label l :=
  Nat.lt_of_lt_of_le hbase (s.le_label l)

theorem mem_blocks_targets {e : Label × Block} (h : Closed s.callee.body.entries)
    (he : e ∈ s.callee.body.entries) {l : Label} (hbase : s.continuation < s.labelBase) :
    s.label l ∈ (s.terminator e.2.terminator).targets ↔ l ∈ e.2.terminator.targets := by
  constructor
  · intro hl
    obtain ⟨-, -, hl⟩ | ⟨l₀, hl₀, hl⟩ := targets_terminator hl
    · exact absurd hl (Nat.ne_of_gt (label_lt hbase l))
    · obtain rfl := s.label_injOn (h e he l₀ (List.mem_append_left _ hl₀)) hl
      exact hl₀
  · intro hl
    cases ht : e.2.terminator with
    | ret value =>
        rw [ht] at hl
        exact nomatch hl
    | _ =>
        rw [terminator, Terminator.targets_mapTargets, Terminator.targets_mapOperands, ← ht]
        · exact List.mem_map_of_mem hl
        · simp

/-- The edges between copied blocks are those between the blocks of the callee. -/
theorem leads_blocks (h : Closed s.callee.body.entries) (hbase : s.continuation < s.labelBase)
    {k l : Label} :
    Leads s.blocks k (s.label l) ↔ ∃ k₀, Leads s.callee.body.entries k₀ l ∧ s.label k₀ = k := by
  constructor
  · rintro ⟨e, he, rfl, hl⟩
    obtain ⟨e₀, he₀, rfl⟩ := List.mem_map.1 he
    exact ⟨e₀.1, ⟨e₀, he₀, rfl, (mem_blocks_targets h he₀ hbase).1 hl⟩, rfl⟩
  · rintro ⟨-, ⟨e, he, rfl, hl⟩, rfl⟩
    exact ⟨_, List.mem_map_of_mem he, rfl, (mem_blocks_targets h he hbase).2 hl⟩

/-- The copied blocks that return lead to the block behind the call, and no others do. -/
theorem leads_continuation (hbase : s.continuation < s.labelBase) {k : Label} :
    Leads s.blocks k s.continuation ↔ k ∈ s.returns.map (·.1) := by
  constructor
  · rintro ⟨e, he, rfl, hl⟩
    obtain ⟨e₀, he₀, rfl⟩ := List.mem_map.1 he
    obtain ⟨value, hret, -⟩ | ⟨l, -, hl⟩ := targets_terminator hl
    · exact List.mem_map.2 ⟨(s.label e₀.1, _), s.mem_returns_iff.2
        ⟨e₀.1, e₀.2, value, Func.find?_of_mem_entries he₀, hret, rfl, rfl⟩, rfl⟩
    · exact absurd hl (Nat.ne_of_gt (label_lt hbase l))
  · intro hk
    obtain ⟨e, he, rfl⟩ := List.mem_map.1 hk
    obtain ⟨k₀, b, value, hb, ht, hl, -⟩ := s.mem_returns_iff.1 he
    refine ⟨_, List.mem_map_of_mem (OrderedMap.mem_entries_iff.2 hb), hl, ?_⟩
    simp [block, ht, terminator, Terminator.targets]

/-- The copy keeps the phis of the callee in step; the block that is entered has none. -/
theorem agrees_of_mem_blocks (h : s.callee.PhiConsistent) (hclosed : Closed s.callee.body.entries)
    (hentry : ∀ b, s.callee.body.find? .entry = some b → ∀ i ∈ b.instrs, i.isPhi = false)
    (hbase : s.continuation < s.labelBase) (header : Label) {e : Label × Block}
    (he : e ∈ s.blocks) :
    e.2.Agrees fun k => Leads s.blocks k e.1 ∨ (header = k ∧ e.1 ∈ [s.label .entry]) := by
  obtain ⟨⟨l, b⟩, hb, rfl⟩ := List.mem_map.1 he
  have hagrees := (Func.phiConsistent_iff_of_perm (List.Perm.refl _)).1 h _ hb
  have hphi : ∀ i, (s.instr i).isPhi = i.isPhi := fun i => by simp [instr]
  refine ⟨hagrees.first.map hphi, fun i hi hp k => ?_⟩
  obtain ⟨i₀, hi₀, rfl⟩ := List.mem_map.1 hi
  rw [hphi] at hp
  have hne : l ≠ .entry := by
    rintro rfl
    rw [hentry b (Func.find?_of_mem_entries hb) i₀ hi₀] at hp
    cases hp
  have hlabel : s.label l ∉ [s.label .entry] := by
    rw [List.mem_singleton]
    exact fun heq => hne (s.label_injOn (List.mem_map_of_mem hb) heq)
  rw [phiLabels_instr, List.mem_map, leads_blocks hclosed hbase, or_iff_left fun hk => hlabel hk.2]
  exact exists_congr fun k₀ => and_congr_left fun _ => hagrees.names i₀ hi₀ hp k₀

end Splice

namespace Inline

variable {caller callee f : Func} {call : Call} {pos : Position} {cont : Label}

/-- The result of a call may become a phi of the block behind the call, which names the blocks
that return. -/
theorem agrees_bindResult {e : Label × Block} {returns : List (Label × Operand)}
    {preds : Label → Prop} (h : e.2.Agrees preds)
    (hcont : e.1 = cont → (∀ i ∈ e.2.instrs, i.isPhi = false) ∧
      ∀ k, k ∈ returns.map (·.1) ↔ preds k) :
    (bindResult call returns cont e).2.Agrees preds := by
  have hmap : (e.2.mapOperands (resultRead call returns)).Agrees preds := by
    refine ⟨h.first.map (Instr.isPhi_mapOperands _), fun i hi hphi k => ?_⟩
    obtain ⟨i₀, hi₀, rfl⟩ := List.mem_map.1 hi
    rw [Instr.isPhi_mapOperands] at hphi
    rw [Instr.phiLabels_mapOperands]
    exact h.names i₀ hi₀ hphi k
  by_cases he : e.1 = cont
  · obtain ⟨-, hreturns⟩ := hcont he
    simp only [bindResult, he, if_true]
    refine ⟨hmap.first.phis_append _, fun i hi hphi k => ?_⟩
    rcases List.mem_append.1 hi with hi | hi
    · obtain ⟨p, hp, rfl⟩ := List.mem_map.1 hi
      unfold resultPhis at hp
      split at hp
      · obtain rfl := List.mem_singleton.1 hp
        exact hreturns k
      · exact absurd hp List.not_mem_nil
    · exact hmap.names i hi hphi k
  · simpa only [bindResult, he, if_false, List.nil_append] using hmap

/-- The block behind the call is where its label says. -/
theorem noPhi_tail {b : Block} (hb : caller.body.find? pos.label = some b)
    (htail : ∀ i ∈ b.instrs.drop (pos.index + 1), i.isPhi = false) {e : Label × Block}
    (he : e ∈ joined caller call callee pos b) (hlabel : e.1 = caller.nextLabel) :
    ∀ i ∈ e.2.instrs, i.isPhi = false := by
  rcases List.mem_append.1 he with he | he
  · exact absurd hlabel (Nat.ne_of_gt (label_lt_of_mem_blocks he))
  obtain ⟨e₀, he₀, rfl⟩ := List.mem_map.1 he
  rcases List.mem_cons.1 he₀ with rfl | he₀
  · have hne : caller.nextLabel ≠ pos.label := Func.nextLabel_ne (by rw [hb]; rfl)
    exact absurd hlabel.symm hne
  rcases List.mem_cons.1 he₀ with rfl | he₀
  · exact Func.noPhi_followTail htail
  · have hk : e₀.1 ∈ caller.body.keys := List.mem_map_of_mem (OrderedMap.mem_of_mem_erase he₀)
    exact absurd hlabel (Nat.ne_of_lt (Func.lt_nextLabel hk))

/-- Only the copy leads to the block behind the call. -/
theorem leads_joined_nextLabel {b : Block} (hclosed : Closed caller.body.entries)
    (hb : caller.body.find? pos.label = some b) {k : Label} :
    Leads (copy caller call callee).blocks k caller.nextLabel ↔
      Leads (joined caller call callee pos b) k caller.nextLabel := by
  have hold : ∀ e ∈ caller.body.entries, caller.nextLabel ∉ e.2.terminator.targets := by
    intro e he hl
    have hk : caller.nextLabel ∈ caller.body.keys := hclosed e he _ (List.mem_append_left _ hl)
    exact absurd (Func.lt_nextLabel hk) (Nat.lt_irrefl _)
  rw [joined, leads_append, Func.leads_followTail, leads_cons, leads_cons]
  refine ⟨Or.inl, fun h => ?_⟩
  rcases h with h | ⟨-, h⟩ | ⟨-, h⟩ | ⟨e, he, -, h⟩
  · exact h
  · exact absurd (List.mem_singleton.1 h)
      (Nat.ne_of_lt (Splice.label_lt (s := copy caller call callee) (Nat.lt_succ_self _) _))
  · exact absurd h (hold (pos.label, b) (OrderedMap.mem_entries_iff.2 hb))
  · exact absurd h (hold e (OrderedMap.mem_of_mem_erase he))

theorem phiConsistent_splice (h : splice caller call callee pos = .ok (cont, f))
    (hcall : caller.callAt pos = .ok call) (hcaller : caller.PhiConsistent)
    (hclosed : Closed caller.body.entries) (hcallee : callee.PhiConsistent)
    (hclosed' : Closed callee.body.entries)
    (hentry : ∀ b, callee.body.find? .entry = some b → ∀ i ∈ b.instrs, i.isPhi = false) :
    f.PhiConsistent := by
  obtain ⟨b, hb, hi, rfl, -, hp⟩ := splice_eq_ok h hcall
  set s := copy caller call callee with hs
  have hbase : s.continuation < s.labelBase := Nat.lt_succ_self _
  have hnoPhi : ∀ i ∈ b.instrs.drop (pos.index + 1), i.isPhi = false := fun i hi' =>
    (hcaller _ b hb).first.noPhi_drop hi rfl i
      ((List.drop_sublist_drop_left _ (Nat.le_succ _)).subset hi')
  have hjoined : AllAgree (joined caller call callee pos b) := by
    refine hcaller.cutBlocks hclosed hb ((hcaller _ b hb).first.sublist (List.take_sublist _ _))
      (fun i hi _ => List.mem_of_mem_take hi) hnoPhi ?_ (fun e he => label_lt_of_mem_blocks he) ?_
      fun e he => s.agrees_of_mem_blocks hcallee hclosed' hentry hbase pos.label he
    · intro k hk
      rw [List.mem_singleton.1 hk]
      exact Nat.le_of_lt (s.label_lt hbase _)
    · intro e he k hk
      obtain ⟨e₀, -, rfl⟩ := List.mem_map.1 he
      obtain ⟨-, -, rfl⟩ | ⟨l, -, rfl⟩ := Splice.targets_terminator hk
      · exact Nat.le_refl _
      · exact Nat.le_of_lt (s.label_lt hbase l)
  refine (Func.phiConsistent_iff_of_perm hp).2 ?_
  intro e he
  obtain ⟨e₀, he₀, rfl⟩ := List.mem_map.1 he
  have hleads : ∀ k l, Leads ((joined caller call callee pos b).map
      (bindResult call s.returns caller.nextLabel)) k l ↔
        Leads (joined caller call callee pos b) k l := fun k l =>
    leads_map (fun _ => rfl) (targets_bindResult call s.returns caller.nextLabel)
  simp only [hleads]
  refine agrees_bindResult (hjoined e₀ he₀) fun hlabel => ⟨?_, fun k => ?_⟩
  · exact noPhi_tail hb hnoPhi he₀ hlabel
  · change _ ↔ Leads _ k e₀.1
    rw [hlabel, ← s.leads_continuation hbase]
    exact leads_joined_nextLabel hclosed hb

end Inline

namespace MemCall

variable {c : MemCall} {f f' : Func} {pos : Position} {b : Block}

theorem noPhi_transferByte (c : MemCall) (base : Reg) (index : Operand) :
    ∀ i ∈ c.transferByte base index, i.isPhi = false := by
  rw [transferByte]
  cases c.kind <;> simp [Instr.isPhi]

/-- A loop has one phi, which names the block that enters the loop and the loop itself. -/
theorem agrees_forwardLoop (c : MemCall) (base : Reg) {label pred : Label} (exit : Label)
    {preds : Label → Prop} (hpreds : ∀ k, preds k ↔ k = pred ∨ k = label) :
    (c.forwardLoop base label pred exit).Agrees preds := by
  have hrest : ∀ i ∈ c.transferByte (base + 3) (.reg base) ++
      [.arith .add (base + 1) c.lenTy (.reg base) (c.const 1),
        .icmp (base + 2) .ult (.reg (base + 1)) c.len], i.isPhi = false := by
    intro i hi
    rcases List.mem_append.1 hi with hi | hi
    · exact c.noPhi_transferByte _ _ i hi
    · rcases List.mem_cons.1 hi with rfl | hi
      · rfl
      · rw [List.mem_singleton.1 hi]
        rfl
  refine ⟨PhisFirst.phis_append [_] (.of_noPhi hrest), fun i hi hphi k => ?_⟩
  rcases List.mem_cons.1 hi with rfl | hi
  · simp [Instr.phiLabels, hpreds]
  · rw [hrest i hi] at hphi
    cases hphi

theorem agrees_backwardLoop (c : MemCall) (base : Reg) {label pred : Label} (exit : Label)
    {preds : Label → Prop} (hpreds : ∀ k, preds k ↔ k = pred ∨ k = label) :
    (c.backwardLoop base label pred exit).Agrees preds := by
  have hrest : ∀ i ∈ .arith .sub (base + 1) c.lenTy (.reg base) (c.const 1) ::
      c.transferByte (base + 3) (.reg (base + 1)) ++
        [.icmp (base + 2) .ne (.reg (base + 1)) (c.const 0)], i.isPhi = false := by
    intro i hi
    rcases List.mem_append.1 hi with hi | hi
    · rcases List.mem_cons.1 hi with rfl | hi
      · rfl
      · exact c.noPhi_transferByte _ _ i hi
    · rw [List.mem_singleton.1 hi]
      rfl
  refine ⟨PhisFirst.phis_append [_] (.of_noPhi hrest), fun i hi hphi k => ?_⟩
  rcases List.mem_cons.1 hi with rfl | hi
  · simp [Instr.phiLabels, hpreds]
  · rw [hrest i hi] at hphi
    cases hphi

theorem agrees_of_mem_blocks {base : Reg} {header first exit : Label} (hexit : exit < first)
    {e : Label × Block} (he : e ∈ c.blocks base header first exit) :
    e.2.Agrees fun k => Leads (c.blocks base header first exit) k e.1 ∨
      (header = k ∧ e.1 ∈ [exit, first]) := by
  rw [blocks] at he ⊢
  cases hkind : c.kind <;> simp only [hkind, List.mem_cons, List.not_mem_nil, or_false] at he
  · subst he
    refine agrees_forwardLoop c _ _ fun k => ?_
    simp
    grind
  · rcases he with rfl | rfl | rfl
    · exact .of_noPhi (by simp [direction, Instr.isPhi]) _
    · refine agrees_backwardLoop c _ _ fun k => ?_
      simp
      grind
    · refine agrees_forwardLoop c _ _ fun k => ?_
      simp
      grind
  · subst he
    refine agrees_forwardLoop c _ _ fun k => ?_
    simp
    grind

theorem le_of_mem_targets {base : Reg} {header first exit : Label} (hexit : exit < first)
    {e : Label × Block} (he : e ∈ c.blocks base header first exit) {k : Label}
    (hk : k ∈ e.2.terminator.targets) : exit ≤ k := by
  rw [blocks] at he
  cases hkind : c.kind <;> simp only [hkind, List.mem_cons, List.not_mem_nil, or_false] at he
  · subst he
    simp at hk
    grind
  · rcases he with rfl | rfl | rfl <;> simp at hk <;> grind
  · subst he
    simp at hk
    grind

theorem phiConsistent_expand (hf : f.PhiConsistent) (hclosed : Closed f.body.entries) {call : Call}
    (hcall : f.callAt pos = .ok call) (h : c.expand f pos = .ok f') : f'.PhiConsistent := by
  obtain ⟨b, hb, hi⟩ := Func.callAt_eq_ok_iff.1 hcall
  obtain ⟨opened, -, -, hp⟩ := entries_expand hb h
  have hexit : f.nextLabel < f.nextLabel + 1 := Nat.lt_succ_self _
  refine (Func.phiConsistent_iff_of_perm hp).2 (hf.cutBlocks hclosed hb ?_ ?_ ?_ ?_ ?_ ?_ ?_)
  · refine PhisFirst.append_noPhi ((hf _ b hb).first.sublist (List.take_sublist _ _)) ?_
    simp [Instr.isPhi]
  · intro i hi hphi
    rcases List.mem_append.1 hi with hi | hi
    · exact List.mem_of_mem_take hi
    · rw [List.mem_singleton.1 hi] at hphi
      cases hphi
  · exact fun i hi' => (hf _ b hb).first.noPhi_drop hi rfl i
      ((List.drop_sublist_drop_left _ (Nat.le_succ _)).subset hi')
  · intro k hk
    simp only [Terminator.targets, List.mem_cons, List.not_mem_nil, or_false] at hk
    grind
  · exact fun e he => Nat.lt_of_lt_of_le hexit (le_of_mem_blocks he)
  · exact fun e he k hk => le_of_mem_targets hexit he hk
  · exact fun e he => agrees_of_mem_blocks hexit he

end MemCall

namespace Module

/-- Phis and predecessors stay in step when a block is split behind its phis, when any call becomes
a loop, and when a call is inlined whose callee is in step and is entered at a block without
phis. -/
theorem phiConsistent_of_edit {m : Module} {id : FuncId} {f : Func} (hf : m.funcs.get? id = some f)
    (hcheck : f.checkSSA = .ok ()) (h : f.PhiConsistent) :
    (∀ label index fresh g, f.splitBlock label index = .ok (fresh, g) →
      (∀ b, f.body.find? label = some b → ∀ i ∈ b.instrs.drop index, i.isPhi = false) →
        g.PhiConsistent) ∧
    (∀ pos kind m', m.expandMemCall ⟨id, pos⟩ kind = .ok m' →
      ∃ g, m'.funcs.get? id = some g ∧ g.PhiConsistent) ∧
    ∀ pos call callee g cont m', f.callAt pos = .ok call → call.callee.resolve? = some callee →
      m.funcs.get? callee = some g → g.PhiConsistent →
      (∀ b, g.body.find? .entry = some b → ∀ i ∈ b.instrs, i.isPhi = false) →
      m.inlineAt ⟨id, pos⟩ = .ok (cont, m') →
        ∃ f', m'.funcs.get? id = some f' ∧ f'.PhiConsistent := by
  have hclosed := (Func.Checked.of_checkSSA hcheck).closed
  refine ⟨fun label index fresh g hs hindex => h.splitBlock hclosed hs hindex,
    fun pos kind m' he => ?_, fun pos call callee g cont m' hcall hcallee hg hphi hentry hi => ?_⟩
  · obtain ⟨f₀, call, c, f', hf₀, hcall, -, hexpand, rfl⟩ := exists_expand_of_expandMemCall he
    obtain rfl : f = f₀ := Option.some.inj (hf.symm.trans hf₀)
    refine ⟨f', by simp [setFunc, Arena.set, hf], ?_⟩
    exact MemCall.phiConsistent_expand h hclosed hcall hexpand
  · obtain ⟨caller, call', id', g', f', hx, hs, rfl⟩ := inlineAt_eq_ok hi
    obtain rfl : f = caller := Option.some.inj (hf.symm.trans hx.caller_live)
    obtain rfl : call = call' := Except.ok.inj (hcall.symm.trans hx.call_at)
    obtain rfl : callee = id' := Option.some.inj (hcallee.symm.trans hx.resolves)
    obtain rfl : g = g' := Option.some.inj (hg.symm.trans hx.callee_live)
    refine ⟨f', by simp [setFunc, Arena.set, hf], ?_⟩
    exact Inline.phiConsistent_splice hs hcall h hclosed hphi
      (Func.Checked.of_checkSSA hx.callee_ssa).closed hentry

namespace selfLoop

/-- Its entry is its own successor, twice. -/
def caller : Func where
  name := "spin"
  params := [⟨none, .privatePtr⟩, ⟨none, .privatePtr⟩, ⟨none, .i64⟩, ⟨none, .i1⟩]
  retTy := .void
  body := .ofList [(.entry,
    ⟨[.phi ⟨0, .i64, [(.entry, .reg 1)]⟩,
      .call ⟨none, .void, .direct ⟨3, 1⟩, [.arg 0, .arg 1, .arg 2], .c⟩,
      .call ⟨some 1, .i64, .direct ⟨2, 1⟩, [.reg 0, .arg 3], .c⟩],
      .branch (.arg 3) .entry .entry⟩)]

def callee : Func where
  name := "pick"
  params := [⟨none, .i64⟩, ⟨none, .i1⟩]
  retTy := .i64
  body := .ofList [(.entry, ⟨[], .branch (.arg 1) 1 2⟩), (1, ⟨[], .ret (some (.arg 0))⟩),
    (2, ⟨[], .ret (some (.imm ⟨64, 0⟩))⟩)]

def module : Module where
  funcs := .ofList [caller, callee,
    { name := "llvm.memmove.p0.p0.i64", params := [], retTy := .void }]

def id : FuncId := ⟨1, 1⟩

def split : Func := ((caller.splitBlock .entry 2).toOption.getD (1, caller)).2

def expanded : Module := (module.expandMemCall ⟨id, ⟨.entry, 1⟩⟩ .move).toOption.getD module

def inlined : Module := ((module.inlineAt ⟨id, ⟨.entry, 2⟩⟩).toOption.getD (1, module)).2

end selfLoop

open selfLoop in
theorem selfLoop_phiConsistent :
    (caller.splitBlock .entry 2 = .ok (1, split) ∧ split.PhiConsistent) ∧
    (module.expandMemCall ⟨id, ⟨.entry, 1⟩⟩ .move = .ok expanded ∧
      ∃ g, expanded.funcs.get? id = some g ∧ g.PhiConsistent) ∧
    module.inlineAt ⟨id, ⟨.entry, 2⟩⟩ = .ok (1, inlined) ∧
      ∃ g, inlined.funcs.get? id = some g ∧ g.PhiConsistent := by
  have hf : module.funcs.get? id = some caller := rfl
  obtain ⟨hsplit, hexpand, hinline⟩ :=
    phiConsistent_of_edit hf (by decide +kernel) (by decide +kernel)
  have htail : ∀ b ∈ caller.body.find? .entry, ∀ i ∈ b.instrs.drop 2, i.isPhi = false := by
    decide +kernel
  have hentry : ∀ b ∈ callee.body.find? .entry, ∀ i ∈ b.instrs, i.isPhi = false := by
    decide +kernel
  refine ⟨⟨rfl, hsplit .entry 2 1 split rfl htail⟩,
    ⟨rfl, hexpand ⟨.entry, 1⟩ .move expanded rfl⟩, rfl, ?_⟩
  exact hinline ⟨.entry, 2⟩ _ ⟨2, 1⟩ callee 1 inlined rfl rfl rfl (by decide +kernel) hentry rfl

end Module

end KernelIR
