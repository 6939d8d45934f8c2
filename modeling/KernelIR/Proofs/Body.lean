import KernelIR.Inline
import KernelIR.Proofs.Fresh
import Mathlib

/-!
# The blocks of an edited body

What the edits of a body leave, as lists of labelled blocks up to their order.
-/

namespace KernelIR

namespace OrderedMap

variable {κ α : Type} [Ord κ] [Std.LawfulEqOrd κ] [DecidableEq κ]

theorem entries_modify (m : OrderedMap κ α) (k : κ) (f : α → α) :
    (m.modify k f).entries = m.entries.map fun e => (e.1, if e.1 = k then f e.2 else e.2) := by
  rw [modify, entries_mapWithKey]
  refine List.map_congr_left ?_
  intro e _
  by_cases h : e.1 = k
  · simp [h, Std.ReflCmp.compare_self]
  · simp [h]

theorem entries_erase_eq_filter (m : OrderedMap κ α) (k : κ) :
    (m.erase k).entries = m.entries.filter fun e => e.1 ≠ k := by
  rw [entries_erase]
  refine List.filter_congr ?_
  intro e _
  by_cases h : e.1 = k
  · simp [h, Std.ReflCmp.compare_self]
  · simp [h]

theorem ne_of_mem_erase {m : OrderedMap κ α} {k : κ} {e : κ × α} (h : e ∈ (m.erase k).entries) :
    e.1 ≠ k := by
  rw [entries_erase_eq_filter] at h
  simpa using (List.mem_filter.1 h).2

theorem mem_of_mem_erase {m : OrderedMap κ α} {k : κ} {e : κ × α} (h : e ∈ (m.erase k).entries) :
    e ∈ m.entries := by
  rw [entries_erase_eq_filter] at h
  exact (List.mem_filter.1 h).1

theorem mem_erase_of_ne {m : OrderedMap κ α} {k : κ} {e : κ × α} (he : e ∈ m.entries)
    (h : e.1 ≠ k) : e ∈ (m.erase k).entries := by
  rw [entries_erase_eq_filter]
  exact List.mem_filter.2 ⟨he, by simpa using h⟩

end OrderedMap

namespace Func

/-- What a split does to the blocks that the tail leads to: their phis name the tail. -/
def followTail (targets : List Label) (old new : Label) (e : Label × Block) : Label × Block :=
  (e.1, if e.1 ∈ targets then e.2.mapPhiLabels (relabel old new) else e.2)

@[simp] theorem followTail_fst (targets : List Label) (old new : Label) (e : Label × Block) :
    (followTail targets old new e).1 = e.1 := rfl

@[simp] theorem dests_followTail (targets : List Label) (old new : Label) (e : Label × Block) :
    (followTail targets old new e).2.dests = e.2.dests := by
  have h : Instr.dest? ∘ Instr.mapPhiLabels (relabel old new) = Instr.dest? :=
    funext (Instr.dest?_mapPhiLabels _)
  by_cases hl : e.1 ∈ targets
  · simp only [followTail, hl, if_true, Block.dests, Block.mapPhiLabels, List.filterMap_map, h]
  · simp only [followTail, hl, if_false]

theorem splitBlock_eq_ok_iff {f g : Func} {label fresh : Label} {index : Nat} :
    f.splitBlock label index = .ok (fresh, g) ↔
      ∃ b, f.body.find? label = some b ∧ index ≤ b.instrs.length ∧ fresh = f.nextLabel ∧
        g = { f with
          body := ((f.body.insert label ⟨b.instrs.take index, .jump fresh⟩).insert fresh
            ⟨b.instrs.drop index, b.terminator⟩).mapWithKey fun l block =>
              if l ∈ b.terminator.targets then block.mapPhiLabels (relabel label fresh)
              else block } := by
  rw [splitBlock, splitBlockAt]
  cases hb : f.body.find? label with
  | none => simp
  | some b =>
      by_cases hi : index ≤ b.instrs.length
      · simp only [hi, if_true, Except.ok.injEq, Prod.mk.injEq, Option.some.injEq,
          exists_eq_left', true_and]
        constructor
        · rintro ⟨rfl, rfl⟩
          exact ⟨rfl, rfl⟩
        · rintro ⟨rfl, rfl⟩
          exact ⟨rfl, rfl⟩
      · simp [hi]

theorem entries_splitBlock {f g : Func} {label fresh : Label} {index : Nat} {b : Block}
    (h : f.splitBlock label index = .ok (fresh, g)) (hb : f.body.find? label = some b) :
    g.body.entries.Perm
      (((label, ⟨b.instrs.take index, .jump fresh⟩) :: (fresh, ⟨b.instrs.drop index, b.terminator⟩)
        :: (f.body.erase label).entries).map (followTail b.terminator.targets label fresh)) := by
  obtain ⟨b', hb', -, rfl, rfl⟩ := splitBlock_eq_ok_iff.1 h
  obtain rfl : b = b' := Option.some.inj (hb.symm.trans hb')
  have hne : f.nextLabel ≠ label := by
    intro he
    have := f.find?_nextLabel
    rw [he, hb] at this
    cases this
  refine List.Perm.map _ ?_
  refine (OrderedMap.entries_insert_perm _ _ _).trans ?_
  have hfresh : (f.body.insert label ⟨b.instrs.take index, .jump f.nextLabel⟩).find? f.nextLabel
      = none := by
    rw [OrderedMap.find?_insert_of_ne _ hne]
    exact f.find?_nextLabel
  rw [OrderedMap.erase_eq_self hfresh]
  exact (((OrderedMap.entries_insert_perm _ _ _).cons _).trans (List.Perm.swap _ _ _))

theorem removeInstr_eq_ok {f g : Func} {pos : Position} {i : Instr} {b : Block}
    (h : f.removeInstr pos = .ok (i, g)) (hb : f.body.find? pos.label = some b) :
    b.instrs[pos.index]? = some i ∧
      g = { f with
        body := f.body.insert pos.label { b with instrs := b.instrs.eraseIdx pos.index } } := by
  rw [removeInstr, hb] at h
  cases hi : b.instrs[pos.index]? with
  | none => simp [hi] at h
  | some i' =>
      simp only [hi, Except.ok.injEq, Prod.mk.injEq] at h
      exact ⟨by rw [h.1], h.2.symm⟩

theorem exists_removeInstr {f : Func} {pos : Position} {b : Block} {i : Instr}
    (hb : f.body.find? pos.label = some b) (hi : b.instrs[pos.index]? = some i) :
    ∃ g, f.removeInstr pos = .ok (i, g) := by
  simp [removeInstr, hb, hi]

theorem removeInstr_eq_body {f g : Func} {pos : Position} {i : Instr}
    (h : f.removeInstr pos = .ok (i, g)) : g = { f with body := g.body } := by
  cases hb : f.body.find? pos.label with
  | none => simp [removeInstr, hb] at h
  | some b =>
      obtain ⟨-, rfl⟩ := removeInstr_eq_ok h hb
      rfl

theorem callAt_eq_ok_iff {f : Func} {pos : Position} {c : Call} :
    f.callAt pos = .ok c ↔
      ∃ b, f.body.find? pos.label = some b ∧ b.instrs[pos.index]? = some (.call c) := by
  rw [callAt, instr?]
  cases f.body.find? pos.label with
  | none => simp
  | some b =>
      simp only [Option.bind_some, Option.some.injEq, exists_eq_left']
      cases b.instrs[pos.index]? with
      | none => simp
      | some i => cases i <;> simp

/-- The blocks once `f` is opened at `pos`: the instruction there is gone, what stood before it and
what stood behind it are the two halves of its block. -/
def openedBlocks (f : Func) (pos : Position) (b : Block) : List (Label × Block) :=
  ((pos.label, ⟨b.instrs.take pos.index, .jump f.nextLabel⟩) ::
    (f.nextLabel, ⟨b.instrs.drop (pos.index + 1), b.terminator⟩) ::
      (f.body.erase pos.label).entries).map
    (followTail b.terminator.targets pos.label f.nextLabel)

theorem nextLabel_ne {f : Func} {l : Label} (h : (f.body.find? l).isSome = true) :
    f.nextLabel ≠ l := by
  intro he
  rw [← he, f.find?_nextLabel] at h
  cases h

theorem find?_of_mem_entries {f : Func} {l : Label} {b : Block} (h : (l, b) ∈ f.body.entries) :
    f.body.find? l = some b :=
  OrderedMap.mem_entries_iff.1 h

theorem isDeclaration_of_find? {f : Func} {l : Label} {b : Block} (h : f.body.find? l = some b) :
    f.isDeclaration = false := by
  have hne : f.body.entries ≠ [] := List.ne_nil_of_mem (OrderedMap.mem_entries_iff.2 h)
  simpa [isDeclaration, OrderedMap.isEmpty] using hne

theorem mem_instrs_iff {f : Func} {pos : Position} {i : Instr} :
    (pos, i) ∈ f.instrs ↔
      ∃ b, f.body.find? pos.label = some b ∧ b.instrs[pos.index]? = some i := by
  simp only [instrs, List.mem_flatMap, List.mem_map, Prod.exists, Prod.mk.injEq]
  constructor
  · rintro ⟨l, b, hb, i', n, hi, rfl, rfl⟩
    exact ⟨b, find?_of_mem_entries hb, List.mem_zipIdx_iff_getElem?.1 hi⟩
  · rintro ⟨b, hb, hi⟩
    exact ⟨pos.label, b, OrderedMap.mem_entries_iff.2 hb, i, pos.index,
      List.mem_zipIdx_iff_getElem?.2 hi, rfl, rfl⟩

theorem mem_calls_iff {f : Func} {pos : Position} {c : Call} :
    (pos, c) ∈ f.calls ↔ f.callAt pos = .ok c := by
  rw [callAt_eq_ok_iff, ← mem_instrs_iff]
  simp only [calls, List.mem_filterMap, Prod.exists, Option.map_eq_some_iff, Prod.mk.injEq]
  constructor
  · rintro ⟨p, i, h, c', hc, rfl, rfl⟩
    cases i with
    | call c' =>
        cases hc
        exact h
    | _ => cases hc
  · exact fun h => ⟨pos, .call c, h, c, rfl, rfl, rfl⟩

/-- What is done to the instructions one by one is done to the calls among them. -/
theorem calls_mapBlocks {g : Block → Block} {k : Instr → Instr} {h : Call → Call} (f : Func)
    (hg : ∀ b, (g b).instrs = b.instrs.map k) (hk : ∀ i, (k i).call? = i.call?.map h) :
    (f.mapBlocks g).calls = f.calls.map fun e => (e.1, h e.2) := by
  have hinstrs : (f.mapBlocks g).instrs = f.instrs.map fun e => (e.1, k e.2) := by
    have hentries : (f.mapBlocks g).body.entries = f.body.entries.map fun e => (e.1, g e.2) := rfl
    simp only [instrs, hentries, List.flatMap_map, List.map_flatMap]
    congr 1
    funext e
    simp [hg, List.zipIdx_map]
  rw [calls, hinstrs, calls, List.filterMap_map, List.map_filterMap]
  congr 1
  funext e
  simp [hk, Function.comp_def]

theorem followTail_eraseIdx (targets : List Label) (old new l : Label) (is : List Instr)
    (t : Terminator) (n : Nat) :
    (l, { (followTail targets old new (l, ⟨is, t⟩)).2 with
      instrs := (followTail targets old new (l, ⟨is, t⟩)).2.instrs.eraseIdx n }) =
      followTail targets old new (l, ⟨is.eraseIdx n, t⟩) := by
  by_cases h : l ∈ targets <;>
    simp [followTail, h, Block.mapPhiLabels, List.eraseIdx_eq_take_drop_succ, List.map_take,
      List.map_drop]

theorem eraseIdx_take_succ {α : Type} (xs : List α) (n : Nat) :
    (xs.take (n + 1)).eraseIdx n = xs.take n := by
  simp [List.eraseIdx_eq_take_drop_succ, List.take_take]

/-- A block is split behind an instruction, which is then removed. -/
theorem entries_opened {f split opened : Func} {pos : Position} {fresh : Label} {i : Instr}
    {b : Block} (hs : f.splitBlock pos.label (pos.index + 1) = .ok (fresh, split))
    (hr : split.removeInstr pos = .ok (i, opened)) (hb : f.body.find? pos.label = some b) :
    opened.body.entries.Perm (openedBlocks f pos b) ∧ fresh = f.nextLabel ∧
      opened = { f with body := opened.body } := by
  obtain ⟨b', hb', -, rfl, hsplit⟩ := splitBlock_eq_ok_iff.1 hs
  obtain rfl : b = b' := Option.some.inj (hb.symm.trans hb')
  have hp := entries_splitBlock hs hb
  have hne : f.nextLabel ≠ pos.label := nextLabel_ne (by rw [hb]; rfl)
  have hhead : split.body.find? pos.label = some (followTail b.terminator.targets pos.label
      f.nextLabel (pos.label, ⟨b.instrs.take (pos.index + 1), .jump f.nextLabel⟩)).2 :=
    find?_of_mem_entries (hp.mem_iff.2 List.mem_cons_self)
  obtain ⟨-, rfl⟩ := removeInstr_eq_ok hr hhead
  refine ⟨?_, rfl, by rw [hsplit]⟩
  refine (OrderedMap.entries_insert_perm _ _ _).trans ?_
  rw [OrderedMap.entries_erase_eq_filter, followTail_eraseIdx, eraseIdx_take_succ]
  have hrest : (split.body.entries.filter fun e => e.1 ≠ pos.label).Perm
      (((f.nextLabel, ⟨b.instrs.drop (pos.index + 1), b.terminator⟩) ::
        (f.body.erase pos.label).entries).map
          (followTail b.terminator.targets pos.label f.nextLabel)) := by
    refine (hp.filter _).trans (List.Perm.of_eq ?_)
    rw [List.map_cons, List.filter_cons_of_neg (by simp), List.filter_eq_self.2]
    intro e he
    obtain ⟨e', he', rfl⟩ := List.mem_map.1 he
    rcases List.mem_cons.1 he' with rfl | he'
    · exact decide_eq_true hne
    · have hne' : e'.1 ≠ pos.label := OrderedMap.ne_of_mem_erase he'
      exact decide_eq_true hne'
  exact hrest.cons _

/-- A block can be split behind an instruction, which can then be removed. -/
theorem exists_opened {f : Func} {pos : Position} {b : Block} {i : Instr}
    (hb : f.body.find? pos.label = some b) (hi : b.instrs[pos.index]? = some i) :
    ∃ split j opened, f.splitBlock pos.label (pos.index + 1) = .ok (f.nextLabel, split) ∧
      split.removeInstr pos = .ok (j, opened) := by
  have hlt : pos.index < b.instrs.length := (List.getElem?_eq_some_iff.1 hi).1
  have hs := splitBlock_eq_ok_iff.2 ⟨b, hb, hlt, rfl, rfl⟩
  have hhead := find?_of_mem_entries ((entries_splitBlock hs hb).mem_iff.2 List.mem_cons_self)
  obtain ⟨j, hj⟩ : ∃ j, (followTail b.terminator.targets pos.label f.nextLabel
      (pos.label, ⟨b.instrs.take (pos.index + 1), .jump f.nextLabel⟩)).2.instrs[pos.index]?
        = some j := by
    by_cases h : pos.label ∈ b.terminator.targets <;>
      simp [followTail, h, Block.mapPhiLabels, hi]
  obtain ⟨opened, hr⟩ := exists_removeInstr hhead hj
  exact ⟨_, j, opened, hs, hr⟩

theorem nextLabel_eq_succ {f : Func} {l : Nat} (hl : l ∈ f.body.keys)
    (hmax : ∀ k ∈ f.body.keys, k ≤ l) : f.nextLabel = l + 1 := by
  obtain ⟨last, hlast⟩ := OrderedMap.lastKey?_isSome hl
  have hle : l ≤ last := OrderedMap.le_of_lastKey?_eq_some hlast hl
  have hmem : last ∈ f.body.keys := OrderedMap.mem_keys_of_lastKey? hlast
  simp only [nextLabel, hlast]
  exact congrArg (· + 1) (Nat.le_antisymm (hmax last hmem) hle)

theorem keys_openedBlocks (f : Func) (pos : Position) (b : Block) :
    (openedBlocks f pos b).map (·.1) =
      pos.label :: f.nextLabel :: (f.body.erase pos.label).entries.map (·.1) := by
  simp [openedBlocks, Function.comp_def]

theorem nextLabel_opened {f opened : Func} {pos : Position} {b : Block}
    (hp : opened.body.entries.Perm (openedBlocks f pos b))
    (hb : f.body.find? pos.label = some b) : opened.nextLabel = f.nextLabel + 1 := by
  have hkeys : opened.body.keys.Perm
      (pos.label :: f.nextLabel :: (f.body.erase pos.label).entries.map (·.1)) := by
    rw [← keys_openedBlocks f pos b]
    exact hp.map (·.1)
  refine nextLabel_eq_succ (hkeys.mem_iff.2 (by simp)) ?_
  intro k hk
  have hlt : ∀ l, l ∈ f.body.keys → l ≤ f.nextLabel := fun l hl => Nat.le_of_lt (lt_nextLabel hl)
  rcases List.mem_cons.1 (hkeys.mem_iff.1 hk) with rfl | hk
  · exact hlt _ (OrderedMap.mem_keys_iff.2 (by rw [hb]; rfl))
  · rcases List.mem_cons.1 hk with rfl | hk
    · exact Nat.le_refl _
    · obtain ⟨e, he, rfl⟩ := List.mem_map.1 hk
      exact hlt _ (List.mem_map_of_mem (OrderedMap.mem_of_mem_erase he))

/-- Blocks under fresh labels are added to those that are there. -/
theorem entries_insertBlocks {f : Func} {blocks : List (Label × Block)}
    (hnodup : (blocks.map (·.1)).Nodup) (hfresh : ∀ e ∈ blocks, f.body.find? e.1 = none) :
    (f.insertBlocks blocks).body.entries.Perm (blocks ++ f.body.entries) := by
  induction blocks generalizing f with
  | nil => exact List.Perm.refl _
  | cons e es ih =>
      obtain ⟨he, hes⟩ := List.nodup_cons.1 hnodup
      have hfresh' : ∀ e' ∈ es, (f.body.insert e.1 e.2).find? e'.1 = none := by
        intro e' he'
        have hne : e'.1 ≠ e.1 := fun heq => he (List.mem_map.2 ⟨e', he', heq⟩)
        rw [OrderedMap.find?_insert_of_ne _ hne]
        exact hfresh e' (List.mem_cons_of_mem _ he')
      have hp := ih (f := { f with body := f.body.insert e.1 e.2 }) hes hfresh'
      refine hp.trans ?_
      have hins := f.body.entries_insert_perm e.1 e.2
      rw [OrderedMap.erase_eq_self (hfresh e List.mem_cons_self)] at hins
      exact (hins.append_left es).trans List.perm_middle

end Func

end KernelIR
