import KernelIR.Proofs.Naming.FreshNumbers
import Mathlib

/-!
# Naming device functions again

A pass hands out increasing numbers, and skips those whose names are taken when their turn comes.  A
second pass over the same functions keeps their names unless such a number is free by then: because
a function further down the list had it, and gave it up for another.
-/

namespace KernelIR

namespace Module

variable {m m' : Module} {id : FuncId} {f : Func} {s : String}

/-- The symbol is a global or a function that is not one of `ids`. -/
def HeldOutside (m : Module) (ids : List FuncId) (s : String) : Prop :=
  (∃ id f, id ∉ ids ∧ m.funcs.get? id = some f ∧ f.name = s) ∨
    ∃ id g, m.globals.get? id = some g ∧ g.name = s

theorem mem_symbols_iff_heldOutside (ids : List FuncId) : s ∈ m.symbols ↔
    (∃ id ∈ ids, ∃ f, m.funcs.get? id = some f ∧ f.name = s) ∨ m.HeldOutside ids s := by
  rw [mem_symbols_iff, HeldOutside]
  grind

theorem not_heldOutside (hm : m.symbols.Nodup) {ids : List FuncId} (hid : id ∈ ids)
    (hf : m.funcs.get? id = some f) : ¬m.HeldOutside ids f.name := by
  obtain ⟨hinj, -, hdisjoint⟩ := nodup_symbols_iff.1 hm
  rintro (⟨id', f', hid', hf', hname⟩ | ⟨gid, g, hg, hname⟩)
  · exact hid' (hinj id' id f' f hf' hf hname ▸ hid)
  · exact hdisjoint id gid f g hf hg hname.symm

theorem Updated.eq_or_mem_symbols (h : m.Updated id f m') (hs : s ∈ m'.symbols) :
    s = f.name ∨ s ∈ m.symbols := by
  rcases mem_symbols_iff.1 hs with ⟨id', f', hf', rfl⟩ | ⟨gid, g, hg, rfl⟩
  · by_cases heq : id' = id
    · rw [heq, h.self] at hf'
      exact Or.inl (congrArg Func.name (Option.some.inj hf')).symm
    · exact Or.inr (mem_symbols_iff.2 (Or.inl ⟨id', f', by rw [← h.other id' heq, hf'], rfl⟩))
  · exact Or.inr (mem_symbols_iff.2 (Or.inr ⟨gid, g, by rw [← h.globals, hg], rfl⟩))

theorem Updated.get?_eq (h : m.Updated id f m') (hf : m.funcs.get? id = some f) (id' : FuncId) :
    m'.funcs.get? id' = m.funcs.get? id' := by
  by_cases heq : id' = id
  · rw [heq, h.self, hf]
  · exact h.other id' heq

end Module

namespace DeviceNamer

/-- Renames functions in order, and answers their names. -/
def renameAll (n : DeviceNamer) : List FuncId → ModuleM (List String)
  | [] => return []
  | id :: ids => do
    let (name, n) ← n.rename id
    return name :: (← renameAll n ids)

/-- The numbers of a pass: each function gets the least that is free for it when its turn comes. -/
inductive Numbers : DeviceNamer → Module → List FuncId → List Nat → Module → Prop
  | nil {n m} : Numbers n m [] [] m
  | cons {n m id f k m₁ ids ks m'} (hf : m.funcs.get? id = some f)
      (hk : IsLeast (n.freeNumbers m f) k) (hu : m.Updated id { f with name := name k } m₁)
      (hrest : Numbers ⟨k + 1⟩ m₁ ids ks m') : Numbers n m (id :: ids) (k :: ks) m'

/-- The functions have the names of the numbers. -/
abbrev Carry (m : Module) (ids : List FuncId) (ks : List Nat) : Prop :=
  List.Forall₂ (fun id k => ∃ f, m.funcs.get? id = some f ∧ f.name = name k) ids ks

variable {n : DeviceNamer} {m m₁ m' : Module} {id : FuncId} {ids : List FuncId} {f : Func}
  {j k : Nat} {ks ks' : List Nat}

/-- A pass over functions that are there does not fail. -/
theorem renameAll_apply (n : DeviceNamer) (hlive : ∀ id ∈ ids, m.funcs.contains id = true) :
    ∃ ks m', (n.renameAll ids).apply m = (.ok (ks.map name), m') ∧ Numbers n m ids ks m' := by
  induction ids generalizing n m with
  | nil => exact ⟨[], m, rfl, .nil⟩
  | cons id ids ih =>
      obtain ⟨hid, hlive⟩ := List.forall_mem_cons.1 hlive
      obtain ⟨f, hf⟩ := Arena.contains_iff.1 hid
      obtain ⟨m₁, hm₁, happly⟩ := rename_apply (n := n) hf
      obtain ⟨f', hf', hu, -⟩ := Module.renameFunc_eq_ok hm₁
      obtain rfl : f = f' := Option.some.inj (hf.symm.trans hf')
      obtain ⟨ks, m', hrest, hks⟩ := ih ⟨n.number m f + 1⟩ (m := m₁) fun id' hid' =>
        (hu.contains_iff hf id').trans (hlive id' hid')
      refine ⟨_, m', ?_, .cons hf (n.isLeast_number m f) hu hks⟩
      rw [renameAll, ModuleM.apply_bind_of_ok happly]
      dsimp only
      rw [ModuleM.apply_bind_of_ok hrest]
      rfl

theorem Carry.mem_symbols (h : Carry m ids ks) (hk : k ∈ ks) : name k ∈ m.symbols := by
  induction h with
  | nil => cases hk
  | cons hhead _ ih =>
      rcases List.mem_cons.1 hk with rfl | hk
      · obtain ⟨f, hf, hname⟩ := hhead
        exact Module.mem_symbols_iff.2 (Or.inl ⟨_, f, hf, hname⟩)
      · exact ih hk

theorem Carry.mem_numbers (h : Carry m ids ks) (hid : id ∈ ids) (hf : m.funcs.get? id = some f)
    (hname : f.name = name j) : j ∈ ks := by
  induction h with
  | nil => cases hid
  | cons hhead _ ih =>
      rcases List.mem_cons.1 hid with rfl | hid
      · obtain ⟨f', hf', hname'⟩ := hhead
        obtain rfl := Option.some.inj (hf.symm.trans hf')
        rw [name_injective (hname.symm.trans hname')]
        exact List.mem_cons_self
      · exact List.mem_cons_of_mem _ (ih hid)

theorem Carry.congr (h : Carry m ids ks)
    (hget : ∀ id, m'.funcs.get? id = m.funcs.get? id) : Carry m' ids ks :=
  h.imp fun id _ ⟨f, hf, hname⟩ => ⟨f, (hget id).trans hf, hname⟩

/-- A function that has a numbered name keeps it if the names of the numbers before it are taken. -/
theorem eq_own_iff (hk : IsLeast (n.freeNumbers m f) k) (hle : n.counter ≤ j)
    (hname : f.name = name j) :
    k = j ↔ ∀ i, n.counter ≤ i → i < j → name i ∈ m.symbols := by
  constructor
  · rintro rfl i hi hlt
    by_contra hfree
    exact absurd (hk.2 ⟨hi, Or.inr hfree⟩) (Nat.not_le_of_lt hlt)
  · intro htaken
    by_contra hne
    have hlt : k < j := Nat.lt_of_le_of_ne (hk.2 ⟨hle, Or.inl hname⟩) hne
    rcases hk.1.2 with hname' | hfree
    · exact hne (name_injective (hname'.symm.trans hname))
    · exact hfree (htaken k hk.1.1 hlt)

namespace Numbers

theorem le (h : Numbers n m ids ks m') : ∀ k ∈ ks, n.counter ≤ k := by
  induction h with
  | nil => exact fun k hk => absurd hk List.not_mem_nil
  | cons hf hk hu hrest ih =>
      exact List.forall_mem_cons.2
        ⟨hk.1.1, fun j hj => hk.1.1.trans (Nat.le_of_succ_le (ih j hj))⟩

theorem increasing (h : Numbers n m ids ks m') : ks.Pairwise (· < ·) := by
  induction h with
  | nil => exact .nil
  | cons hf hk hu hrest ih => exact List.pairwise_cons.2 ⟨hrest.le, ih⟩

theorem globals (h : Numbers n m ids ks m') : m'.globals = m.globals := by
  induction h with
  | nil => rfl
  | cons hf hk hu hrest ih => exact ih.trans hu.globals

theorem other (h : Numbers n m ids ks m') (hid : id ∉ ids) :
    m'.funcs.get? id = m.funcs.get? id := by
  induction h with
  | nil => rfl
  | cons hf hk hu hrest ih =>
      obtain ⟨hne, hid⟩ := List.ne_and_not_mem_of_not_mem_cons hid
      exact (ih hid).trans (hu.other id hne)

theorem carry (h : Numbers n m ids ks m') (hids : ids.Nodup) : Carry m' ids ks := by
  induction h with
  | nil => exact .nil
  | cons hf hk hu hrest ih =>
      obtain ⟨hid, hids⟩ := List.nodup_cons.1 hids
      exact .cons ⟨_, (hrest.other hid).trans hu.self, rfl⟩ (ih hids)

theorem contains_eq (h : Numbers n m ids ks m') (id : FuncId) :
    m'.funcs.contains id = m.funcs.contains id := by
  induction h with
  | nil => rfl
  | cons hf hk hu hrest ih => exact ih.trans (hu.contains_iff hf id)

/-- The name of a number that is passed over belongs to a symbol when the pass starts. -/
theorem mem_symbols_of_skipped (h : Numbers n m ids ks m') (hle : n.counter ≤ j) (hj : j ∉ ks)
    (hk : k ∈ ks) (hlt : j < k) : name j ∈ m.symbols := by
  induction h with
  | nil => cases hk
  | @cons n m id f k₀ m₁ ids ks m' hf hk₀ hu hrest ih =>
      obtain ⟨hne, hj⟩ := List.ne_and_not_mem_of_not_mem_cons hj
      rcases Nat.lt_or_gt_of_ne hne with hbelow | habove
      · by_contra hfree
        exact absurd (hk₀.2 ⟨hle, Or.inr hfree⟩) (Nat.not_le_of_lt hbelow)
      · have hk : k ∈ ks := (List.mem_cons.1 hk).resolve_left (by omega)
        refine (hu.eq_or_mem_symbols (ih habove hj hk)).resolve_left ?_
        exact fun heq => hne (name_injective heq)

/-- A pass over functions that have numbered names keeps them exactly if the names of the numbers
that it would have to pass over are taken. -/
theorem eq_iff (h : Numbers n m ids ks' m') (hcarry : Carry m ids ks)
    (hincreasing : ks.Pairwise (· < ·)) (hle : ∀ k ∈ ks, n.counter ≤ k) :
    ks' = ks ↔ ∀ j k, n.counter ≤ j → k ∈ ks → j < k → name j ∈ m.symbols := by
  induction h generalizing ks with
  | nil =>
      cases hcarry
      simp
  | @cons n m id f k' m₁ ids ks' m' hf hk' hu hrest ih =>
      obtain _ | ⟨⟨f₀, hf₀, hname⟩, hcarry⟩ := hcarry
      rename_i k₀ ks
      obtain rfl := Option.some.inj (hf.symm.trans hf₀)
      obtain ⟨habove, hincreasing'⟩ := List.pairwise_cons.1 hincreasing
      have hle₀ : n.counter ≤ k₀ := hle k₀ List.mem_cons_self
      have hhead := eq_own_iff hk' hle₀ hname
      by_cases heq : k' = k₀
      · subst heq
        -- the function keeps its name, so that the rest of the pass sees the same module
        have hsame : ∀ id', m₁.funcs.get? id' = m.funcs.get? id' :=
          hu.get?_eq (by rw [hf, ← hname])
        have hsymbols (s : String) : s ∈ m₁.symbols ↔ s ∈ m.symbols := by
          simp only [Module.mem_symbols_iff, hsame, hu.globals]
        rw [List.cons.injEq, ih (Carry.congr hcarry hsame) hincreasing' habove]
        simp only [hsymbols, true_and]
        constructor
        · intro hrest j k hj hk hlt
          rcases Nat.lt_trichotomy j k' with hbelow | rfl | hlater
          · exact hhead.1 rfl j hj hbelow
          · exact Module.mem_symbols_iff.2 (Or.inl ⟨id, f, hf, hname⟩)
          · exact hrest j k hlater ((List.mem_cons.1 hk).resolve_left (by omega)) hlt
        · intro hall j k hj hk hlt
          exact hall j k (hle₀.trans (Nat.le_of_succ_le hj)) (List.mem_cons_of_mem _ hk) hlt
      · refine iff_of_false (fun hcons => heq (List.cons.inj hcons).1) fun hall => heq ?_
        exact hhead.2 fun j hj hlt => hall j k₀ hj List.mem_cons_self hlt

theorem heldOutside_iff (h : Numbers n m ids ks m') (s : String) :
    m'.HeldOutside ids s ↔ m.HeldOutside ids s := by
  rw [Module.HeldOutside, Module.HeldOutside, h.globals]
  refine or_congr_left (exists_congr fun id => exists_congr fun f => and_congr_right fun hid => ?_)
  rw [h.other hid]

/-- When a pass is over, the names of the numbers that it passed over are still taken, except those
that functions of the list gave up. -/
theorem taken_iff (h : Numbers n m ids ks m') (hm : m.symbols.Nodup) (hids : ids.Nodup) :
    (∀ j k, n.counter ≤ j → k ∈ ks → j < k → name j ∈ m'.symbols) ↔
      ∀ id ∈ ids, ∀ f j k, m.funcs.get? id = some f → f.name = name j → n.counter ≤ j → k ∈ ks →
        j < k → j ∈ ks := by
  have hcarry := h.carry hids
  constructor
  · intro htaken id hid f j k hf hname hle hk hlt
    rcases (Module.mem_symbols_iff_heldOutside ids).1 (htaken j k hle hk hlt) with
      ⟨id', hid', f', hf', hname'⟩ | houtside
    · exact hcarry.mem_numbers hid' hf' hname'
    · exact absurd (hname ▸ (h.heldOutside_iff _).1 houtside) (Module.not_heldOutside hm hid hf)
  · intro hgiven j k hle hk hlt
    by_cases hj : j ∈ ks
    · exact hcarry.mem_symbols hj
    · have hskipped := h.mem_symbols_of_skipped hle hj hk hlt
      rcases (Module.mem_symbols_iff_heldOutside ids).1 hskipped with
        ⟨id, hid, f, hf, hname⟩ | houtside
      · exact absurd (hgiven id hid f j k hf hname hle hk hlt) hj
      · exact (Module.mem_symbols_iff_heldOutside ids).2 (Or.inr ((h.heldOutside_iff _).2 houtside))

end Numbers

theorem Carry.map_name (h : Carry m ids ks) :
    (ids.map fun id => (m.funcs.get? id).map (·.name)) = (ks.map name).map some := by
  induction h with
  | nil => rfl
  | cons hhead _ ih =>
      obtain ⟨f, hf, hname⟩ := hhead
      simp only [List.map_cons, ih, hf, Option.map_some, hname]

/-- Two fresh namers go over the same functions, which succeeds.  The second leaves them the names
that the first gave them exactly if each number below one that was handed out whose name a function
of the list had at first was itself handed out. -/
theorem renameAll_again_iff (hm : m.symbols.Nodup) (hids : ids.Nodup)
    (hlive : ∀ id ∈ ids, m.funcs.contains id = true) : ∃ first m₁ second m₂,
    (renameAll {} ids).apply m = (.ok first, m₁) ∧
    (renameAll {} ids).apply m₁ = (.ok second, m₂) ∧
    (ids.map fun id => (m₁.funcs.get? id).map (·.name)) = first.map some ∧
    (ids.map fun id => (m₂.funcs.get? id).map (·.name)) = second.map some ∧
    (second = first ↔ ∀ id ∈ ids, ∀ f j k, m.funcs.get? id = some f → f.name = name j →
      name k ∈ first → j < k → name j ∈ first) := by
  obtain ⟨ks, m₁, happly, hks⟩ := renameAll_apply {} hlive
  obtain ⟨ks', m₂, happly', hks'⟩ := renameAll_apply (m := m₁) {} fun id hid =>
    (hks.contains_eq id).trans (hlive id hid)
  refine ⟨_, m₁, _, m₂, happly, happly', (hks.carry hids).map_name, (hks'.carry hids).map_name, ?_⟩
  rw [(List.map_injective_iff.2 name_injective).eq_iff,
    hks'.eq_iff (hks.carry hids) hks.increasing hks.le, hks.taken_iff hm hids]
  simp only [List.mem_map_of_injective name_injective, Nat.zero_le, true_implies]

namespace givenUp

open NamingSession.busyModule (func)

/-- The last function of `steadyList` is named first, and gives up a number that is handed out to
the next one. -/
def steady : Module where
  funcs := .ofList [func "copy", func "sycl_func_2", func "scale", func "sycl_func_3"]
  globals := .ofList [{ name := "sycl_func_0", ty := .int 32 }]

def steadyList : List FuncId := [⟨4, 1⟩, ⟨1, 1⟩, ⟨3, 1⟩]

/-- The first function is named past the number that the second then gives up. -/
def shifting : Module where
  funcs := .ofList [func "scale", func "sycl_func_0"]

def shiftingList : List FuncId := [⟨1, 1⟩, ⟨2, 1⟩]

end givenUp

open givenUp in
theorem givenUp_steady : steady.symbols.Nodup ∧ steadyList.Nodup ∧
    (∀ id ∈ steadyList, steady.funcs.contains id = true) ∧ ∃ m₁ m₂,
      (renameAll {} steadyList).apply steady =
        (.ok ["sycl_func_1", "sycl_func_3", "sycl_func_4"], m₁) ∧
      (renameAll {} steadyList).apply m₁ =
        (.ok ["sycl_func_1", "sycl_func_3", "sycl_func_4"], m₂) := by
  have hm : steady.symbols.Nodup := by decide +kernel
  have hids : steadyList.Nodup := by decide +kernel
  have hlive : ∀ id ∈ steadyList, steady.funcs.contains id = true := by decide +kernel
  obtain ⟨first, m₁, second, m₂, hfirst, hsecond, -, -, hiff⟩ := renameAll_again_iff hm hids hlive
  have hok : ((renameAll {} steadyList).apply steady).1 = .ok ([1, 3, 4].map name) := by
    decide +kernel
  rw [hfirst] at hok
  obtain rfl : first = [1, 3, 4].map name := Except.ok.inj hok
  refine ⟨hm, hids, hlive, m₁, m₂, hfirst, ?_⟩
  rw [hsecond, hiff.2]
  · rfl
  · intro id hid f j k hf hname hk hlt
    have hk : k ∈ [1, 3, 4] := (List.mem_map_of_injective name_injective).1 hk
    have hnames : (steadyList.map fun id => (steady.funcs.get? id).map (·.name)) =
        ["sycl_func_3", "copy", "scale"].map some := by decide +kernel
    have hj : j < 4 := by
      rcases (show k = 1 ∨ k = 3 ∨ k = 4 by simpa using hk) with rfl | rfl | rfl <;> omega
    have hmem : some (name j) ∈ ["sycl_func_3", "copy", "scale"].map some :=
      hnames ▸ List.mem_map.2 ⟨id, hid, by rw [hf, Option.map_some, hname]⟩
    interval_cases j <;> revert hmem <;> decide +kernel

open givenUp in
/-- Number 0 is taken when the first function is named, and free when it is named again. -/
theorem givenUp_shifting : shifting.symbols.Nodup ∧ shiftingList.Nodup ∧
    (∀ id ∈ shiftingList, shifting.funcs.contains id = true) ∧
    ¬∀ first m₁ second m₂, (renameAll {} shiftingList).apply shifting = (.ok first, m₁) →
      (renameAll {} shiftingList).apply m₁ = (.ok second, m₂) → second = first := by
  refine ⟨by decide +kernel, by decide +kernel, by decide +kernel, fun hkeeps => ?_⟩
  have hfirst : ((renameAll {} shiftingList).apply shifting).1 =
      .ok ["sycl_func_1", "sycl_func_2"] := by decide +kernel
  have hsecond : ((renameAll {} shiftingList).apply
      ((renameAll {} shiftingList).apply shifting).2).1 = .ok ["sycl_func_0", "sycl_func_1"] := by
    decide +kernel
  exact absurd (hkeeps _ _ _ _ (Prod.ext hfirst rfl) (Prod.ext hsecond rfl)) (by decide)

end DeviceNamer

end KernelIR
