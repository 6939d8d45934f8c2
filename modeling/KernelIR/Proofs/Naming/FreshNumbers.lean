import KernelIR.Proofs.Handles.DeviceNames
import KernelIR.Proofs.History
import Mathlib

/-!
# Fresh numbers for device functions

The namer tries one number after the other.  No more names are taken than there are symbols, so that
it stops, at the least number whose name is free.  Its counter passes every number that it hands
out: whatever happens to the module in between, no name is handed out twice.
-/

namespace KernelIR

namespace DeviceNamer

variable {m : Module} {id : FuncId} {f : Func} {n : DeviceNamer} {k : Nat}

/-- The search as it goes on, for at most so many rounds.  The counter moves past each number that
is tried. -/
def search (m : Module) (f : Func) : Nat → DeviceNamer → Option (String × DeviceNamer)
  | 0, _ => none
  | rounds + 1, n =>
    if isFree m f (name n.counter) then some (name n.counter, ⟨n.counter + 1⟩)
    else search m f rounds ⟨n.counter + 1⟩

/-- The numbers from the counter on whose name the function has, or no symbol. -/
def freeNumbers (n : DeviceNamer) (m : Module) (f : Func) : Set Nat :=
  {k | n.counter ≤ k ∧ (f.name = name k ∨ name k ∉ m.symbols)}

theorem mem_freeNumbers_iff :
    k ∈ n.freeNumbers m f ↔ n.counter ≤ k ∧ isFree m f (name k) = true := by
  rw [isFree_iff]
  rfl

theorem number_le (n : DeviceNamer) (m : Module) (f : Func) :
    n.number m f ≤ n.counter + m.symbols.length := by
  obtain ⟨i, hi, hnumber⟩ := n.exists_number m f
  have hlt : i < m.symbols.length + 1 := List.mem_range.1 (List.mem_of_find?_eq_some hi)
  omega

theorem isLeast_number (n : DeviceNamer) (m : Module) (f : Func) :
    IsLeast (n.freeNumbers m f) (n.number m f) := by
  refine ⟨mem_freeNumbers_iff.2 ⟨Nat.le_add_right _ _, n.isFree_number m f⟩, ?_⟩
  intro k hk
  obtain ⟨hle, hfree⟩ := mem_freeNumbers_iff.1 hk
  obtain ⟨j, rfl⟩ := Nat.exists_eq_add_of_le hle
  obtain ⟨i, hi, hnumber⟩ := n.exists_number m f
  rw [hnumber]
  refine Nat.add_le_add_left ?_ _
  by_contra hlt
  have hnot := (List.find?_range_eq_some.1 hi).2.2 j (Nat.lt_of_not_le hlt)
  simp [hfree] at hnot

/-- The search ends with the least free number once it has rounds enough to come there. -/
theorem search_eq {rounds : Nat} (hk : IsLeast (n.freeNumbers m f) k)
    (hrounds : k < n.counter + rounds) : search m f rounds n = some (name k, ⟨k + 1⟩) := by
  induction rounds generalizing n with
  | zero => exact absurd hk.1.1 (Nat.not_le_of_lt hrounds)
  | succ rounds ih =>
      rw [search]
      by_cases hfree : isFree m f (name n.counter) = true
      · have hle : k ≤ n.counter := hk.2 (mem_freeNumbers_iff.2 ⟨Nat.le_refl _, hfree⟩)
        rw [if_pos hfree, Nat.le_antisymm hle hk.1.1]
      · have hne : n.counter ≠ k := fun heq =>
          hfree (heq ▸ (mem_freeNumbers_iff.1 hk.1).2)
        rw [if_neg hfree]
        apply ih
        · exact ⟨⟨Nat.lt_of_le_of_ne hk.1.1 hne, hk.1.2⟩,
            fun j hj => hk.2 ⟨Nat.le_of_succ_le hj.1, hj.2⟩⟩
        · dsimp only
          omega

theorem rename_apply_dead (hf : m.funcs.get? id = none) :
    (n.rename id).apply m = (.error (.deadHandle id), m) := by
  have hnext : (n.next id).apply m = (.error (.deadHandle id), m) :=
    ModuleM.apply_bind_of_error (ModuleM.apply_func_of_none hf) _
  exact ModuleM.apply_bind_of_error hnext _

end DeviceNamer

/-- What happens while a namer is at work: it renames a function, or the module is changed. -/
inductive NamingEvent where
  | rename (id : FuncId)
  | change (g : Module → Module)

/-- A namer at work: the module as it is, and the names that were handed out. -/
structure NamingSession where
  namer : DeviceNamer
  current : Module
  names : List String := []

namespace NamingSession

def step (s : NamingSession) : NamingEvent → NamingSession
  | .rename id =>
    match (s.namer.rename id).apply s.current with
    | (.ok (name, namer), current) => ⟨namer, current, s.names ++ [name]⟩
    | (.error _, current) => { s with current }
  | .change g => { s with current := g s.current }

def run (s : NamingSession) (events : List NamingEvent) : NamingSession := events.foldl step s

variable {s : NamingSession} {id : FuncId} {e : NamingEvent} {events : List NamingEvent}

/-- A function that is there gets the first free number.  A dead handle changes nothing. -/
theorem step_rename (s : NamingSession) (id : FuncId) : s.step (.rename id) = s ∨
    ∃ f m', s.current.funcs.get? id = some f ∧
      s.current.renameFunc id (DeviceNamer.name (s.namer.number s.current f)) = .ok m' ∧
      s.step (.rename id) = ⟨⟨s.namer.number s.current f + 1⟩, m',
        s.names ++ [DeviceNamer.name (s.namer.number s.current f)]⟩ := by
  rw [step]
  cases hf : s.current.funcs.get? id with
  | none =>
      rw [DeviceNamer.rename_apply_dead hf]
      exact Or.inl rfl
  | some f =>
      obtain ⟨m', hm', happly⟩ := DeviceNamer.rename_apply (n := s.namer) hf
      rw [happly]
      exact Or.inr ⟨f, m', rfl, hm', rfl⟩

/-- The names handed out are distinct, and the counter has passed them. -/
structure Orderly (s : NamingSession) : Prop where
  names : s.names.Nodup
  passed : ∀ name ∈ s.names, ∃ k < s.namer.counter, name = DeviceNamer.name k

theorem Orderly.step (h : s.Orderly) (e : NamingEvent) : (s.step e).Orderly := by
  cases e with
  | change g => exact ⟨h.names, h.passed⟩
  | rename id =>
      rcases s.step_rename id with hstep | ⟨f, m', hf, -, hstep⟩
      · rwa [hstep]
      · rw [hstep]
        have hle := (s.namer.isLeast_number s.current f).1.1
        constructor
        · refine List.nodup_append.2 ⟨h.names, List.nodup_singleton _, ?_⟩
          rintro name hname _ hnew heq
          obtain rfl := List.mem_singleton.1 hnew
          obtain ⟨k, hk, rfl⟩ := h.passed name hname
          have heq := DeviceNamer.name_injective heq
          omega
        · intro name hname
          rcases List.mem_append.1 hname with hname | hname
          · obtain ⟨k, hk, rfl⟩ := h.passed name hname
            exact ⟨k, by dsimp only; omega, rfl⟩
          · exact ⟨_, Nat.lt_succ_self _, List.mem_singleton.1 hname⟩

theorem Orderly.run (h : s.Orderly) (events : List NamingEvent) : (s.run events).Orderly := by
  induction events generalizing s with
  | nil => exact h
  | cons e events ih => exact ih (h.step e)

theorem nodup_symbols_step (hs : s.current.symbols.Nodup)
    (hchange : ∀ g, e = .change g → ∀ m : Module, m.symbols.Nodup → (g m).symbols.Nodup) :
    (s.step e).current.symbols.Nodup := by
  cases e with
  | change g => exact hchange g rfl s.current hs
  | rename id =>
      rcases s.step_rename id with hstep | ⟨f, m', -, hm', hstep⟩
      · rwa [hstep]
      · rw [hstep]
        exact Module.nodup_symbols_renameFunc hs hm'

theorem nodup_symbols_run (hs : s.current.symbols.Nodup)
    (hchange : ∀ g, .change g ∈ events → ∀ m : Module, m.symbols.Nodup → (g m).symbols.Nodup) :
    (s.run events).current.symbols.Nodup := by
  induction events generalizing s with
  | nil => exact hs
  | cons e events ih =>
      refine ih (nodup_symbols_step hs fun g heq => ?_) fun g hg =>
        hchange g (List.mem_cons_of_mem _ hg)
      exact hchange g (heq ▸ List.mem_cons_self)

/-- The search for a name stops, with the least number from the counter on whose name the function
has or no symbol; renaming to it succeeds and leaves the symbols distinct.  Whatever happens to the
module between the renamings of one namer, the names that it hands out are distinct; and symbols
stay distinct if they do in what happens in between. -/
theorem names_fresh {m : Module} (hm : m.symbols.Nodup) (n : DeviceNamer) :
    (∀ id f, m.funcs.get? id = some f → ∃ k m',
      IsLeast (n.freeNumbers m f) k ∧
      (∀ rounds, m.symbols.length < rounds →
        DeviceNamer.search m f rounds n = some (DeviceNamer.name k, ⟨k + 1⟩)) ∧
      (n.next id).apply m = (.ok (DeviceNamer.name k, ⟨k + 1⟩), m) ∧
      (n.rename id).apply m = (.ok (DeviceNamer.name k, ⟨k + 1⟩), m') ∧
      m.Updated id { f with name := DeviceNamer.name k } m' ∧ m'.symbols.Nodup) ∧
    ∀ events, (run ⟨n, m, []⟩ events).names.Nodup ∧
      ((∀ g, .change g ∈ events → ∀ m : Module, m.symbols.Nodup → (g m).symbols.Nodup) →
        (run ⟨n, m, []⟩ events).current.symbols.Nodup) := by
  constructor
  · intro id f hf
    obtain ⟨m', hm', happly⟩ := DeviceNamer.rename_apply (n := n) hf
    obtain ⟨f', hf', hupdated, -⟩ := Module.renameFunc_eq_ok hm'
    obtain rfl : f = f' := Option.some.inj (hf.symm.trans hf')
    refine ⟨n.number m f, m', n.isLeast_number m f, ?_, DeviceNamer.next_apply hf, happly,
      hupdated, Module.nodup_symbols_renameFunc hm hm'⟩
    intro rounds hrounds
    have hle := n.number_le m f
    exact DeviceNamer.search_eq (n.isLeast_number m f) (by omega)
  · intro events
    have hstart : Orderly ⟨n, m, []⟩ :=
      ⟨List.nodup_nil, fun _ hname => absurd hname List.not_mem_nil⟩
    exact ⟨(hstart.run events).names, nodup_symbols_run hm⟩

namespace busyModule

def func (name : String) : Func where
  name := name
  params := []
  retTy := .void
  conv := .spirFunc

/-- The first function has a name that the namer would give it. -/
def source : Module where
  funcs := .ofList [func "sycl_func_1", func "copy", func "scale"]
  globals := .ofList [{ name := "sycl_func_0", ty := .int 32 }]

def edit (e : Edit) : NamingEvent := .change fun m => e.apply m

/-- Numbers are taken in between, and one that was handed out is given up. -/
def interleaved : List NamingEvent :=
  [.rename ⟨1, 1⟩, edit (.renameFunc ⟨3, 1⟩ "sycl_func_3"), .rename ⟨2, 1⟩,
    edit (.eraseFunc ⟨1, 1⟩), edit (.addFunc (func "sycl_func_4")), .rename ⟨2, 1⟩,
    .rename ⟨3, 1⟩]

end busyModule

open busyModule in
theorem busyModule_names_fresh :
    source.symbols.Nodup ∧
      (∃ k, IsLeast (DeviceNamer.freeNumbers {} source (func "sycl_func_1")) k ∧ k = 1) ∧
      (run ⟨{}, source, []⟩ interleaved).names =
        ["sycl_func_1", "sycl_func_2", "sycl_func_5", "sycl_func_6"] ∧
      (run ⟨{}, source, []⟩ interleaved).current.symbols =
        ["sycl_func_4", "sycl_func_5", "sycl_func_6", "sycl_func_0"] ∧
      (run ⟨{}, source, []⟩ interleaved).names.Nodup ∧
      (run ⟨{}, source, []⟩ interleaved).current.symbols.Nodup := by
  have hnodup : source.symbols.Nodup := by decide +kernel
  obtain ⟨hnext, hrun⟩ := names_fresh hnodup {}
  obtain ⟨k, m', hk, -, happly, -⟩ := hnext ⟨1, 1⟩ (func "sycl_func_1") (by decide +kernel)
  refine ⟨hnodup, ⟨k, hk, ?_⟩, by decide +kernel, by decide +kernel, (hrun interleaved).1,
    (hrun interleaved).2 ?_⟩
  · have hone : (DeviceNamer.next {} ⟨1, 1⟩).apply source =
        (.ok ("sycl_func_1", ⟨2⟩), source) := by decide +kernel
    have hpair : DeviceNamer.name k = "sycl_func_1" ∧ k = 1 := by
      simpa using happly.symm.trans hone
    exact hpair.2
  · intro g hg
    have hedits : ∀ e ∈ interleaved, (∃ id, e = .rename id) ∨ ∃ e', e = edit e' := by
      simp [interleaved]
    rcases hedits _ hg with ⟨id, heq⟩ | ⟨e, heq⟩
    · cases heq
    · obtain rfl := NamingEvent.change.inj heq
      exact fun m hm => e.nodup_symbols_apply hm

end NamingSession

end KernelIR
