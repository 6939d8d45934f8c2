import KernelIR.Func.Edit
import Mathlib

/-!
# Fresh registers and labels

`nextReg` lies above all registers that a body defines or reads, and `nextLabel` above all its
labels.  Counted in words they are the same as long as they are words.
-/

namespace KernelIR

theorem lt_foldl_max {rs : List Nat} {n r : Nat} (hr : r < n ∨ r ∈ rs) :
    r < rs.foldl (fun n r => max n (r + 1)) n := by
  induction rs generalizing n with
  | nil => simpa using hr
  | cons a rs ih =>
      apply ih
      rcases hr with hr | hr
      · exact Or.inl (Nat.lt_of_lt_of_le hr (Nat.le_max_left _ _))
      · rcases List.mem_cons.1 hr with rfl | hr
        · exact Or.inl (Nat.le_max_right _ _)
        · exact Or.inr hr

theorem foldl_max_le {rs : List Nat} {n k : Nat} (hn : n ≤ k) (h : ∀ r ∈ rs, r < k) :
    rs.foldl (fun n r => max n (r + 1)) n ≤ k := by
  induction rs generalizing n with
  | nil => exact hn
  | cons r rs ih =>
      obtain ⟨hr, hrs⟩ := List.forall_mem_cons.1 h
      exact ih (Nat.max_le.2 ⟨hn, hr⟩) hrs

section Words

variable {rs : List Nat} {n k : Nat} {o : Overflow}

end Words

namespace OrderedMap

variable {α : Type}

theorem le_of_lastKey?_eq_some {m : OrderedMap Nat α} {last k : Nat} (hl : m.lastKey? = some last)
    (hk : k ∈ m.keys) : k ≤ last := by
  obtain ⟨e, he, rfl⟩ := Option.map_eq_some_iff.1 hl
  obtain ⟨init, hinit⟩ := List.getLast?_eq_some_iff.1 he
  obtain ⟨a, ha, rfl⟩ := List.mem_map.1 hk
  have hs := m.sorted
  rw [hinit] at hs ha
  rcases List.mem_append.1 ha with ha | ha
  · have hlt : compare a.1 e.1 = .lt := (List.pairwise_append.1 hs).2.2 a ha e (by simp)
    exact Nat.le_of_lt (Nat.compare_eq_lt.1 hlt)
  · exact Nat.le_of_eq (congrArg Prod.fst (List.mem_singleton.1 ha))

theorem mem_keys_of_lastKey? {m : OrderedMap Nat α} {last : Nat} (hl : m.lastKey? = some last) :
    last ∈ m.keys := by
  obtain ⟨e, he, rfl⟩ := Option.map_eq_some_iff.1 hl
  exact List.mem_map_of_mem (List.mem_of_getLast? he)

theorem lastKey?_isSome {m : OrderedMap Nat α} {k : Nat} (hk : k ∈ m.keys) :
    ∃ last, m.lastKey? = some last := by
  have hne : m.entries ≠ [] := fun h => by simp [keys, h] at hk
  exact ⟨_, by rw [lastKey?, List.getLast?_eq_some_getLast hne, Option.map_some]⟩

end OrderedMap

namespace Func

theorem lt_nextReg_of_mem_dests {f : Func} {r : Reg} (h : r ∈ f.dests) : r < f.nextReg :=
  lt_foldl_max (Or.inr (List.mem_append_left _ h))

theorem lt_nextReg_of_mem_reads {f : Func} {r : Reg} (h : r ∈ f.reads) : r < f.nextReg :=
  lt_foldl_max (Or.inr (List.mem_append_right _ h))

theorem nextReg_le {f : Func} {n : Nat} (h : ∀ r ∈ f.dests ++ f.reads, r < n) : f.nextReg ≤ n :=
  foldl_max_le (Nat.zero_le n) h

theorem lt_nextLabel {f : Func} {l : Label} (h : l ∈ f.body.keys) : l < f.nextLabel := by
  obtain ⟨last, hl⟩ := OrderedMap.lastKey?_isSome h
  have hle := OrderedMap.le_of_lastKey?_eq_some hl h
  simp only [nextLabel, hl]
  exact Nat.lt_succ_of_le hle

theorem find?_of_nextLabel_le {f : Func} {l : Label} (h : f.nextLabel ≤ l) :
    f.body.find? l = none := by
  cases hl : f.body.find? l with
  | none => rfl
  | some b =>
      have hk : l ∈ f.body.keys := OrderedMap.mem_keys_iff.2 (by rw [hl]; rfl)
      exact absurd (lt_nextLabel hk) (Nat.not_lt.2 h)

theorem find?_nextLabel (f : Func) : f.body.find? f.nextLabel = none :=
  find?_of_nextLabel_le (Nat.le_refl _)

theorem contains_nextLabel (f : Func) : f.body.contains f.nextLabel = false := by
  rw [OrderedMap.contains, f.find?_nextLabel]
  rfl

end Func

end KernelIR
