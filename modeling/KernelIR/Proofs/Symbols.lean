import KernelIR.Module.Refs
import Mathlib

/-!
# Symbols

What the names of a module say about its handles: when no name is used twice, a name determines
the function or global that has it.  Renaming and replacing one function is described by what is
under each handle afterwards.
-/

namespace KernelIR

section Rel

/-! What is under one handle, in two modules. -/

variable {α β γ : Type} {R : α → β → Prop} {a : Option α} {b : Option β} {c : Option γ}

theorem rel_self {R : α → α → Prop} (hR : ∀ x, R x x) (a : Option α) : Option.Rel R a a := by
  cases a with
  | none => exact .none
  | some x => exact .some (hR x)

theorem rel_comp {S : β → γ → Prop} {T : α → γ → Prop} (h : Option.Rel R a b)
    (h' : Option.Rel S b c) (hT : ∀ x y z, a = some x → b = some y → R x y → S y z → T x z) :
    Option.Rel T a c := by
  cases h with
  | none =>
      cases h'
      exact .none
  | some hR => cases h' with | some hS => exact .some (hT _ _ _ rfl rfl hR hS)

theorem map_eq_of_rel {k : α → γ} {k' : β → γ} (h : Option.Rel R a b)
    (hk : ∀ x y, R x y → k' y = k x) : b.map k' = a.map k := by
  cases h with
  | none => rfl
  | some hR => exact congrArg some (hk _ _ hR)

theorem exists_of_rel {x : α} (h : Option.Rel R a b) (hx : a = some x) :
    ∃ y, b = some y ∧ R x y := by
  subst hx
  cases h with
  | some hR => exact ⟨_, rfl, hR⟩

end Rel

namespace Arena

variable {k : SymbolKind} {α : Type} {a : Arena k α}

theorem nodup_ids (a : Arena k α) : a.ids.Nodup := by
  rw [ids, entries, List.map_filterMap]
  have hlt : (a.slots.zipIdx).Pairwise fun x y => x.2 < y.2 := by
    rw [← List.pairwise_map, List.zipIdx_map_snd]
    exact List.pairwise_lt_range' ..
  refine List.pairwise_filterMap.2 (hlt.imp fun {x y} hxy h hh h' hh' => ?_)
  obtain ⟨e, he, rfl⟩ := Option.map_eq_some_iff.1 hh
  obtain ⟨e', he', rfl⟩ := Option.map_eq_some_iff.1 hh'
  obtain ⟨v, -, rfl⟩ := Option.map_eq_some_iff.1 he
  obtain ⟨v', -, rfl⟩ := Option.map_eq_some_iff.1 he'
  intro heq
  have hidx := congrArg Handle.idx heq
  exact absurd (Nat.succ.inj hidx) (Nat.ne_of_lt hxy)

theorem nodup_entries (a : Arena k α) : a.entries.Nodup :=
  List.Nodup.of_map _ a.nodup_ids

theorem entries_map (a : Arena k α) (f : α → α) :
    (a.map f).entries = a.entries.map fun e => (e.1, f e.2) := by
  simp only [entries, map, List.zipIdx_map, List.filterMap_map, List.map_filterMap]
  congr 1
  funext e
  cases h : e.1.value <;> simp [h]

/-- The entries are one of them and those that are left when it is erased. -/
theorem entries_perm_of_get? {h : Handle k} {v : α} (hv : a.get? h = some v) :
    a.entries.Perm ((h, v) :: (a.erase h).entries) := by
  have hnot : (h, v) ∉ (a.erase h).entries := by
    rw [mem_entries_iff, get?_erase_self]
    simp
  refine (List.perm_ext_iff_of_nodup a.nodup_entries
    (List.nodup_cons.2 ⟨hnot, nodup_entries _⟩)).2 fun e => ?_
  rw [List.mem_cons, mem_entries_iff, mem_entries_iff]
  by_cases he : e.1 = h
  · rw [he, get?_erase_self, hv]
    simp [Prod.ext_iff, he, eq_comm]
  · rw [get?_erase_of_ne a he]
    simp [Prod.ext_iff, he]

theorem mem_ids_iff {h : Handle k} : h ∈ a.ids ↔ (a.get? h).isSome = true := by
  simp [ids, mem_entries_iff, Option.isSome_iff_exists]

theorem mem_values_iff {v : α} : v ∈ a.values ↔ ∃ h, a.get? h = some v := by
  simp [values, mem_entries_iff]

theorem contains_iff {h : Handle k} : a.contains h = true ↔ ∃ v, a.get? h = some v :=
  Option.isSome_iff_exists

theorem findId?_eq_some {p : α → Bool} {h : Handle k} (hf : a.findId? p = some h) :
    ∃ v, a.get? h = some v ∧ p v = true := by
  obtain ⟨e, he, rfl⟩ := Option.map_eq_some_iff.1 hf
  have hp := List.find?_some he
  exact ⟨e.2, mem_entries_iff.1 (List.mem_of_find?_eq_some he), hp⟩

theorem findId?_eq_none_iff {p : α → Bool} :
    a.findId? p = none ↔ ∀ h v, a.get? h = some v → p v = false := by
  simp [findId?, ← mem_entries_iff]

/-- A list over the values has no repetition if the value under a handle determines the handle. -/
theorem nodup_map_values_iff {β : Type} (g : α → β) :
    (a.values.map g).Nodup ↔ ∀ h h' v v', a.get? h = some v → a.get? h' = some v' →
      g v = g v' → h = h' := by
  rw [values, List.map_map, List.nodup_map_iff_inj_on a.nodup_entries]
  constructor
  · intro hinj h h' v v' hv hv' heq
    exact congrArg Prod.fst
      (hinj (h, v) (mem_entries_iff.2 hv) (h', v') (mem_entries_iff.2 hv') heq)
  · rintro hinj ⟨h, v⟩ hv ⟨h', v'⟩ hv' heq
    have hv := mem_entries_iff.1 hv
    have hv' := mem_entries_iff.1 hv'
    obtain rfl := hinj h h' v v' hv hv' heq
    rw [Option.some.inj (hv.symm.trans hv')]

section Equal

variable {b : Arena k α} {h : Handle k}

theorem ext_slots (hslots : a.slots = b.slots) (hfree : a.free = b.free) : a = b := by
  cases a
  cases b
  cases hslots
  cases hfree
  rfl

theorem map_eq_self {f : α → α} (hf : ∀ h v, a.get? h = some v → f v = v) : a.map f = a := by
  refine ext_slots (List.ext_getElem? fun i => ?_) rfl
  simp only [map, List.getElem?_map]
  cases hs : a.slots[i]? with
  | none => rfl
  | some s =>
      have hvalue : s.value.map f = s.value := by
        cases hv : s.value with
        | none => rfl
        | some v => exact congrArg some (hf ⟨i + 1, s.version⟩ v (by simp [get?, hs, hv]))
      simp [hvalue]

theorem modify_eq_self {f : α → α} (hf : ∀ v, a.get? h = some v → f v = v) :
    a.modify h f = a := by
  refine ext_slots (List.ext_getElem? fun i => ?_) rfl
  simp only [modify, List.getElem?_modify]
  cases hs : a.slots[i]? with
  | none => simp
  | some s =>
      simp only [Option.map_eq_map, Option.map_some, Option.some.injEq]
      split_ifs with hi hlive
      · obtain ⟨h0, hversion⟩ := hlive
        have hvalue : s.value.map f = s.value := by
          cases hv : s.value with
          | none => rfl
          | some v =>
              obtain ⟨j, hj⟩ := Nat.exists_eq_succ_of_ne_zero h0
              have hslot : a.slots[j]? = some s := by
                rw [← hs, ← hi, hj]
                rfl
              exact congrArg some (hf v (by simp [get?, hj, hslot, hversion, hv]))
        rw [hvalue]
      · rfl
      · rfl

theorem set_set (a : Arena k α) (h : Handle k) (v w : α) :
    (a.set h v).set h w = a.set h w := by
  refine ext_slots (List.ext_getElem? fun i => ?_) rfl
  simp only [set, modify, List.getElem?_modify]
  cases a.slots[i]? with
  | none => rfl
  | some s =>
      simp only [Option.map_eq_map, Option.map_some, Option.some.injEq]
      split_ifs <;> simp_all [Function.comp_def]

end Equal

end Arena

namespace Module

variable {m m' m'' : Module} {id : FuncId} {f g : Func} {name : String}

/-- No name is used twice. -/
theorem nodup_symbols_iff : m.symbols.Nodup ↔
    (∀ id id' f f', m.funcs.get? id = some f → m.funcs.get? id' = some f' → f.name = f'.name →
      id = id') ∧
    (∀ id id' g g', m.globals.get? id = some g → m.globals.get? id' = some g' →
      g.name = g'.name → id = id') ∧
    ∀ id id' f g, m.funcs.get? id = some f → m.globals.get? id' = some g → f.name ≠ g.name := by
  rw [symbols, List.nodup_append, Arena.nodup_map_values_iff, Arena.nodup_map_values_iff]
  refine and_congr_right fun _ => and_congr_right fun _ => ?_
  simp only [List.mem_map, Arena.mem_values_iff, forall_exists_index, and_imp]
  constructor
  · intro h id id' f g hf hg
    exact h _ f id hf rfl _ g id' hg rfl
  · rintro h _ f id hf rfl _ g id' hg rfl
    exact h id id' f g hf hg

/-- Names stay distinct when each handle that is left has the name that it had. -/
theorem nodup_symbols_of_names (h : m.symbols.Nodup)
    (hfuncs : ∀ id f', m'.funcs.get? id = some f' →
      ∃ f, m.funcs.get? id = some f ∧ f.name = f'.name)
    (hglobals : ∀ id g', m'.globals.get? id = some g' →
      ∃ g, m.globals.get? id = some g ∧ g.name = g'.name) : m'.symbols.Nodup := by
  obtain ⟨hinj, hinj', hdisjoint⟩ := nodup_symbols_iff.1 h
  refine nodup_symbols_iff.2 ⟨fun id₁ id₂ f₁' f₂' h₁' h₂' heq => ?_,
    fun id₁ id₂ g₁' g₂' h₁' h₂' heq => ?_, fun id₁ id₂ f₁' g₂' h₁' h₂' => ?_⟩
  · obtain ⟨f₁, h₁, hname₁⟩ := hfuncs id₁ f₁' h₁'
    obtain ⟨f₂, h₂, hname₂⟩ := hfuncs id₂ f₂' h₂'
    exact hinj id₁ id₂ f₁ f₂ h₁ h₂ (hname₁.trans (heq.trans hname₂.symm))
  · obtain ⟨g₁, h₁, hname₁⟩ := hglobals id₁ g₁' h₁'
    obtain ⟨g₂, h₂, hname₂⟩ := hglobals id₂ g₂' h₂'
    exact hinj' id₁ id₂ g₁ g₂ h₁ h₂ (hname₁.trans (heq.trans hname₂.symm))
  · obtain ⟨f₁, h₁, hname₁⟩ := hfuncs id₁ f₁' h₁'
    obtain ⟨g₂, h₂, hname₂⟩ := hglobals id₂ g₂' h₂'
    exact hname₁ ▸ hname₂ ▸ hdisjoint id₁ id₂ f₁ g₂ h₁ h₂

theorem isTaken_eq_false_iff : m.isTaken name = false ↔
    (∀ id f, m.funcs.get? id = some f → f.name ≠ name) ∧
      ∀ id g, m.globals.get? id = some g → g.name ≠ name := by
  simp [isTaken, findFunc?, findGlobal?, Arena.findId?_eq_none_iff]

theorem findFunc?_eq_some (h : m.findFunc? name = some id) :
    ∃ f, m.funcs.get? id = some f ∧ f.name = name := by
  obtain ⟨f, hf, hname⟩ := Arena.findId?_eq_some h
  exact ⟨f, hf, by simpa using hname⟩

theorem findFunc?_eq_some_iff (h : m.symbols.Nodup) :
    m.findFunc? name = some id ↔ ∃ f, m.funcs.get? id = some f ∧ f.name = name := by
  refine ⟨findFunc?_eq_some, ?_⟩
  rintro ⟨f, hf, hname⟩
  cases hfind : m.findFunc? name with
  | none =>
      have hne := Arena.findId?_eq_none_iff.1 hfind id f hf
      simp [hname] at hne
  | some id' =>
      obtain ⟨f', hf', hname'⟩ := findFunc?_eq_some hfind
      rw [(nodup_symbols_iff.1 h).1 id' id f' f hf' hf (hname'.trans hname.symm)]

/-- `f` is under `id` in `m'`, and nothing else has changed since `m`. -/
structure Updated (m : Module) (id : FuncId) (f : Func) (m' : Module) : Prop where
  self : m'.funcs.get? id = some f
  other : ∀ id', id' ≠ id → m'.funcs.get? id' = m.funcs.get? id'
  globals : m'.globals = m.globals

theorem updated_modifyFunc (hf : m.funcs.get? id = some f) (h : Func → Func) :
    m.Updated id (h f) (m.modifyFunc id h) :=
  ⟨by simp [modifyFunc, hf], fun _ hne => Arena.get?_modify_of_ne _ hne _, rfl⟩

theorem updated_setFunc (hf : m.funcs.get? id = some f) (g : Func) :
    m.Updated id g (m.setFunc id g) :=
  updated_modifyFunc hf fun _ => g

theorem updated_self (hf : m.funcs.get? id = some f) : m.Updated id f m :=
  ⟨hf, fun _ _ => rfl, rfl⟩

theorem modifyFunc_eq_self {k : Func → Func} (hk : ∀ f, m.funcs.get? id = some f → k f = f) :
    m.modifyFunc id k = m := by
  rw [modifyFunc, Arena.modify_eq_self hk]

theorem setFunc_eq_self (hf : m.funcs.get? id = some f) : m.setFunc id f = m :=
  modifyFunc_eq_self fun _ hg => Option.some.inj (hf.symm.trans hg)

theorem setFunc_setFunc (m : Module) (id : FuncId) (f g : Func) :
    (m.setFunc id f).setFunc id g = m.setFunc id g := by
  rw [setFunc, setFunc, setFunc, Arena.set_set]

/-- An edit of one function relates it to what it was, and all others to themselves. -/
theorem rel_of_edit {R : Func → Func → Prop} (hR : ∀ f, R f f) (hf : m.funcs.get? id = some f)
    (hg : m'.funcs.get? id = some g)
    (hother : ∀ id', id' ≠ id → m'.funcs.get? id' = m.funcs.get? id') (h : R f g)
    (id' : FuncId) : Option.Rel R (m.funcs.get? id') (m'.funcs.get? id') := by
  by_cases hid : id' = id
  · rw [hid, hf, hg]
    exact .some h
  · rw [hother id' hid]
    exact rel_self hR _

/-- Renaming changes the name and nothing else, to one that is not in use. -/
theorem renameFunc_eq_ok (h : m.renameFunc id name = .ok m') : ∃ f, m.funcs.get? id = some f ∧
    m.Updated id { f with name } m' ∧ (f.name = name ∨ m.isTaken name = false) := by
  rw [renameFunc] at h
  split at h
  · cases h
  · next f hf =>
      refine ⟨f, hf, ?_⟩
      split_ifs at h with hname htaken
      · cases h
        subst hname
        exact ⟨updated_self hf, Or.inl rfl⟩
      · cases h
        exact ⟨updated_modifyFunc hf fun f => { f with name }, Or.inr (by simpa using htaken)⟩

namespace Updated

theorem get?_eq_some_iff (h : m.Updated id f m') {id' : FuncId} {g : Func} :
    m'.funcs.get? id' = some g ↔ (id' = id ∧ f = g) ∨ (id' ≠ id ∧ m.funcs.get? id' = some g) := by
  by_cases hid : id' = id
  · subst hid
    simp [h.self]
  · simp [hid, h.other id' hid]

theorem trans (h : m.Updated id f m') (h' : m'.Updated id g m'') : m.Updated id g m'' :=
  ⟨h'.self, fun id' hne => (h'.other id' hne).trans (h.other id' hne),
    h'.globals.trans h.globals⟩

theorem contains_iff (h : m.Updated id f m') (hf : m.funcs.get? id = some g) (id' : FuncId) :
    m'.funcs.contains id' = m.funcs.contains id' := by
  by_cases hid : id' = id
  · subst hid
    simp [Arena.contains, h.self, hf]
  · simp [Arena.contains, h.other id' hid]

/-- Names stay distinct when no other symbol has the name of the function. -/
theorem nodup_symbols_of_free (h : m.Updated id f m') (hm : m.symbols.Nodup)
    (hfree : ∀ id' f', id' ≠ id → m.funcs.get? id' = some f' → f'.name ≠ f.name)
    (hfree' : ∀ id' g, m.globals.get? id' = some g → f.name ≠ g.name) : m'.symbols.Nodup := by
  obtain ⟨hfuncs, hglobals, hdisjoint⟩ := nodup_symbols_iff.1 hm
  refine nodup_symbols_iff.2
    ⟨fun id₁ id₂ f₁ f₂ h₁ h₂ heq => ?_, ?_, fun id' gid f' g' hf' hg' => ?_⟩
  · rcases h.get?_eq_some_iff.1 h₁ with ⟨rfl, rfl⟩ | ⟨hne₁, h₁⟩ <;>
      rcases h.get?_eq_some_iff.1 h₂ with ⟨rfl, rfl⟩ | ⟨hne₂, h₂⟩
    · rfl
    · exact absurd heq.symm (hfree id₂ f₂ hne₂ h₂)
    · exact absurd heq (hfree id₁ f₁ hne₁ h₁)
    · exact hfuncs id₁ id₂ f₁ f₂ h₁ h₂ heq
  · rw [h.globals]
    exact hglobals
  · rw [h.globals] at hg'
    rcases h.get?_eq_some_iff.1 hf' with ⟨rfl, rfl⟩ | ⟨-, hf'⟩
    · exact hfree' gid g' hg'
    · exact hdisjoint id' gid f' g' hf' hg'

theorem nodup_symbols (h : m.Updated id f m') (hm : m.symbols.Nodup)
    (hf : m.funcs.get? id = some g) (hname : g.name = f.name ∨ m.isTaken f.name = false) :
    m'.symbols.Nodup := by
  obtain ⟨hfuncs, -, hdisjoint⟩ := nodup_symbols_iff.1 hm
  rcases hname with hname | hname
  · apply h.nodup_symbols_of_free hm
    · exact fun id' f' hne hf' heq => hne (hfuncs id' id f' g hf' hf (heq.trans hname.symm))
    · exact fun gid g' hg' => hname ▸ hdisjoint id gid g g' hf hg'
  · obtain ⟨hfree, hfree'⟩ := isTaken_eq_false_iff.1 hname
    exact h.nodup_symbols_of_free hm (fun id' f' _ => hfree id' f') fun gid g' hg' =>
      (hfree' gid g' hg').symm

end Updated

end Module

end KernelIR
